import ContractHost.Path

/-!
# The order of paths

Paths are compared segment by segment, a path before all that extend it; the reserved segments come before the
keys, and keys are compared by the code points of their characters, which is also the order of their UTF-8 bytes.
The order is total and tells any two paths apart, so that paths without repetition have one ascending row
(`pairwise_sort`).
-/

namespace ContractHost

def Segment.cmp : Segment → Segment → Ordering
  | .root, .root => .eq
  | .root, _ => .lt
  | .parent, .root => .gt
  | .parent, .parent => .eq
  | .parent, .key _ => .lt
  | .key a, .key b => compare a b
  | .key _, _ => .gt

namespace Segment

theorem cmp_swap (a b : Segment) : a.cmp b = (b.cmp a).swap := by
  cases a with
  | root | parent => cases b <;> rfl
  | key x =>
    cases b with
    | root | parent => rfl
    | key y => exact Std.OrientedOrd.eq_swap

instance : Std.TransCmp cmp where
  eq_swap := cmp_swap _ _
  isLE_trans {a b c} hab hbc := by
    cases c with
    | root =>
      cases b with
      | root => exact hab
      | parent | key _ => cases hbc
    | parent =>
      cases a with
      | root | parent => rfl
      | key x => cases b <;> contradiction
    | key z =>
      cases a with
      | root | parent => rfl
      | key x =>
        cases b with
        | root | parent => cases hab
        | key y => exact Std.TransOrd.isLE_trans hab hbc

instance : Std.LawfulEqCmp cmp where
  compare_self {a} := by
    cases a with
    | root | parent => rfl
    | key x => exact Std.ReflOrd.compare_self
  eq_of_compare {a b} h := by
    cases a with
    | root | parent => cases b <;> trivial
    | key x =>
      cases b with
      | root | parent => cases h
      | key y => exact congrArg key (Std.LawfulEqOrd.eq_of_compare h)

end Segment

namespace Path

def cmpSegments : List Segment → List Segment → Ordering
  | [], [] => .eq
  | [], _ :: _ => .lt
  | _ :: _, [] => .gt
  | a :: r, b :: s => (a.cmp b).then (cmpSegments r s)

def cmp (p q : Path) : Ordering := cmpSegments p.segments q.segments

/-- The paths in ascending order. -/
def sort (ps : List Path) : List Path := ps.mergeSort fun p q => (p.cmp q).isLE

/-- It is the order of lists by the order of their members. -/
theorem cmp_eq_compareLex (p q : Path) : p.cmp q = List.compareLex Segment.cmp p.segments q.segments := by
  obtain ⟨r⟩ := p
  obtain ⟨s⟩ := q
  unfold cmp
  induction r generalizing s with
  | nil => cases s <;> rfl
  | cons a r ih =>
    cases s with
    | nil => rfl
    | cons b s =>
      have hrest := ih s
      dsimp only at hrest ⊢
      rw [cmpSegments, hrest, List.compareLex_cons_cons]

instance : Std.TransCmp cmp where
  eq_swap {p q} := by
    rw [cmp_eq_compareLex, cmp_eq_compareLex]
    exact Std.OrientedCmp.eq_swap
  isLE_trans {p q r} hpq hqr := by
    rw [cmp_eq_compareLex] at hpq hqr ⊢
    exact Std.TransCmp.isLE_trans hpq hqr

instance : Std.LawfulEqCmp cmp where
  compare_self {p} := by
    rw [cmp_eq_compareLex]
    exact Std.ReflCmp.compare_self
  eq_of_compare {p q} h := by
    rw [cmp_eq_compareLex] at h
    have hsegments := Std.LawfulEqCmp.eq_of_compare h
    cases p
    cases q
    exact congrArg mk hsegments

theorem sort_perm (ps : List Path) : (sort ps).Perm ps := List.mergeSort_perm ps _

/-- Of different paths each stands strictly before those behind it. -/
theorem pairwise_sort {ps : List Path} (h : ps.Nodup) : (sort ps).Pairwise fun p q => p.cmp q = .lt := by
  have htotal (p q : Path) : ((p.cmp q).isLE || (q.cmp p).isLE) = true := by
    have hswap : p.cmp q = (q.cmp p).swap := Std.OrientedCmp.eq_swap
    rw [hswap]
    cases q.cmp p <;> rfl
  have hle : (sort ps).Pairwise fun p q => (p.cmp q).isLE = true :=
    List.pairwise_mergeSort (fun _ _ _ => Std.TransCmp.isLE_trans) htotal ps
  have hne : (sort ps).Pairwise fun p q => p ≠ q := (sort_perm ps).nodup_iff.2 h
  refine hle.imp₂ (fun p q hpq hdiff => ?_) hne
  cases hcmp : p.cmp q with
  | lt => rfl
  | eq => exact absurd (Std.LawfulEqCmp.eq_of_compare hcmp) hdiff
  | gt =>
    rw [hcmp] at hpq
    cases hpq

end Path

end ContractHost
