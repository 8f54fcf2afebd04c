/-!
# Paths

A path names a node of the state tree by a list of segments.  Two segments are reserved: `root` goes back to the
root of the tree and `parent` one level up, but only when a path is resolved.  A path that is merely stored keeps
them as they are, so paths that would resolve to the same node stay distinct.

Resolving always ends in plain keys (`keysOnly_resolve`) and may be done in steps (`resolve_append`).
-/

namespace ContractHost

inductive Segment
  | root
  | parent
  | key (name : String)
  deriving DecidableEq

namespace Segment

def display : Segment → String
  | root => "~"
  | parent => ".."
  | key name => name

/-- What resolving the segment makes of the keys collected so far. -/
def step (keys : List Segment) : Segment → List Segment
  | root => []
  | parent => keys.dropLast
  | key name => keys ++ [key name]

end Segment

structure Path where
  segments : List Segment
  deriving DecidableEq

namespace Path

/-- The path of the tree's root. -/
def root : Path := ⟨[]⟩

def ofKeys (names : List String) : Path := ⟨names.map .key⟩

/-- The path one level below `p`, left as it is otherwise. -/
def child (p : Path) (name : String) : Path := ⟨p.segments ++ [.key name]⟩

/-- Follows the segments of `p` and then `r`, from the root of the tree on. -/
def resolve (p : Path) (r : List Segment) : Path := ⟨(p.segments ++ r).foldl Segment.step []⟩

/-- A slash before each segment; a lone slash for the root. -/
def display (p : Path) : String :=
  if p.segments = [] then "/" else String.join (p.segments.map fun s => "/" ++ s.display)

/-- Whether no segment is reserved. -/
def KeysOnly (p : Path) : Prop := ∀ s ∈ p.segments, ∃ name, s = .key name

private theorem keysOnly_foldl {keys : List Segment} (r : List Segment) (h : KeysOnly ⟨keys⟩) :
    KeysOnly ⟨r.foldl Segment.step keys⟩ := by
  induction r generalizing keys with
  | nil => exact h
  | cons s r ih =>
    apply ih
    intro t ht
    cases s with
    | root => cases ht
    | parent => exact h t (List.dropLast_subset _ ht)
    | key name =>
      rcases List.mem_append.1 ht with ht | ht
      · exact h t ht
      · exact ⟨name, List.mem_singleton.1 ht⟩

theorem keysOnly_resolve (p : Path) (r : List Segment) : KeysOnly (p.resolve r) :=
  keysOnly_foldl _ fun _ h => by cases h

theorem foldl_step_of_keysOnly {p : Path} (h : p.KeysOnly) (keys : List Segment) :
    p.segments.foldl Segment.step keys = keys ++ p.segments := by
  obtain ⟨r⟩ := p
  induction r generalizing keys with
  | nil => simp
  | cons s r ih =>
    obtain ⟨name, rfl⟩ := h s (List.mem_cons_self ..)
    rw [List.foldl_cons, ih _ (fun t ht => h t (List.mem_cons_of_mem _ ht))]
    simp [Segment.step]

/-- Resolving in two steps is resolving in one. -/
theorem resolve_append (p : Path) (r s : List Segment) : (p.resolve r).resolve s = p.resolve (r ++ s) := by
  rw [resolve, List.foldl_append, foldl_step_of_keysOnly (keysOnly_resolve p r), List.nil_append]
  simp only [resolve, List.foldl_append]

end Path

end ContractHost
