import Mathlib.Algebra.BigOperators.Group.Finset.Basic
import Mathlib.Data.List.Dedup
import Mathlib.Order.Basic

set_option autoImplicit false

/-!
# Sums over the groups of a list

The items of a list are grouped by a key, and each group contributes to a sum. The sum
does not depend on the order of the items, and it can be taken part by part when the
parts do not divide a group. In a list that is sorted by key the groups are stretches.
-/
namespace DistributedLabs.Grouping

variable {α K M : Type} [DecidableEq K] [AddCommMonoid M] (key : α → K)

def group (k : K) (l : List α) : List α := l.filter fun x => key x = k

def total (f : K → List α → M) (l : List α) : M :=
  ∑ k ∈ (l.map key).toFinset, f k (group key k l)

/-- The order of the items in a group does not matter. -/
def Unordered (f : K → List α → M) : Prop := ∀ k xs ys, xs.Perm ys → f k xs = f k ys

variable {key} {f : K → List α → M}

theorem total_perm (hf : Unordered f) {l l' : List α} (h : l.Perm l') :
    total key f l = total key f l' := by
  unfold total
  rw [List.toFinset_eq_of_perm _ _ (h.map key)]
  exact Finset.sum_congr rfl fun k _ => hf k _ _ (h.filter _)

theorem group_filter {p : K → Bool} {k : K} (hk : p k = true) (l : List α) :
    group key k (l.filter fun x => p (key x)) = group key k l := by
  unfold group
  rw [List.filter_filter]
  refine List.filter_congr fun x _ => ?_
  by_cases hx : key x = k <;> simp [hx, hk]

theorem keys_filter (p : K → Bool) (l : List α) :
    ((l.filter fun x => p (key x)).map key).toFinset =
      (l.map key).toFinset.filter (p · = true) := by
  ext k
  simp only [List.mem_toFinset, List.mem_map, List.mem_filter, Finset.mem_filter]
  constructor
  · rintro ⟨x, ⟨hx, hp⟩, rfl⟩
    exact ⟨⟨x, hx, rfl⟩, hp⟩
  · rintro ⟨⟨x, hx, rfl⟩, hp⟩
    exact ⟨x, ⟨hx, hp⟩, rfl⟩

theorem total_filter (p : K → Bool) (l : List α) : total key f (l.filter fun x => p (key x)) =
    ∑ k ∈ (l.map key).toFinset with p k = true, f k (group key k l) := by
  unfold total
  rw [keys_filter]
  refine Finset.sum_congr rfl fun k hk => ?_
  rw [group_filter (Finset.mem_filter.mp hk).2]

/-- Parts that do not divide a group can be summed one by one. -/
theorem total_partition {n : ℕ} {part : K → ℕ} (hpart : ∀ k, part k < n) (l : List α) :
    ∑ r ∈ Finset.range n, total key f (l.filter fun x => part (key x) = r) = total key f l := by
  have hsum := Finset.sum_fiberwise_of_maps_to (s := (l.map key).toFinset) (t := Finset.range n)
    (fun k _ => Finset.mem_range.mpr (hpart k)) (fun k => f k (group key k l))
  rw [total, ← hsum]
  refine Finset.sum_congr rfl fun r _ => ?_
  have hpiece : total key f (l.filter fun x => decide (part (key x) = r)) = _ :=
    total_filter (fun k => decide (part k = r)) l
  simpa using hpiece

theorem total_peel {k : K} {l : List α} (hk : k ∈ l.map key) : total key f l =
    f k (group key k l) + total key f (l.filter fun x => key x ≠ k) := by
  have hrest : total key f (l.filter fun x => decide (key x ≠ k)) = _ :=
    total_filter (fun k' => decide (k' ≠ k)) l
  have herase : (l.map key).toFinset.filter (fun k' => decide (k' ≠ k) = true) =
      (l.map key).toFinset.erase k := by
    ext k'
    simp [and_comm]
  rw [herase] at hrest
  rw [hrest]
  exact (Finset.add_sum_erase _ _ (List.mem_toFinset.mpr hk)).symm

section sorted
variable [PartialOrder K]

def Sorted (key : α → K) (l : List α) : Prop := l.Pairwise fun x y => key x ≤ key y

omit [DecidableEq K] in
theorem Sorted.filter {l : List α} (h : Sorted key l) (p : α → Bool) : Sorted key (l.filter p) :=
  List.Pairwise.filter p h

/-- In a sorted list the group of the first item comes first. -/
theorem Sorted.takeWhile_eq {x : α} {l : List α} (h : Sorted key (x :: l)) :
    l.takeWhile (fun y => key y = key x) = group key (key x) l ∧
      l.dropWhile (fun y => key y = key x) = l.filter fun y => key y ≠ key x := by
  unfold group
  induction l with
  | nil => exact ⟨rfl, rfl⟩
  | cons y l ih =>
    have hpair := List.pairwise_cons.mp h
    have htail := List.pairwise_cons.mp hpair.2
    by_cases hy : key y = key x
    · obtain ⟨htake, hdrop⟩ := ih (List.pairwise_cons.mpr
        ⟨fun z hz => hpair.1 z (List.mem_cons_of_mem _ hz), htail.2⟩)
      simp [hy, htake, hdrop]
    · -- From here on the keys are above that of `x`.
      have hne : ∀ z ∈ y :: l, key z ≠ key x := by
        intro z hz heq
        have hxy := hpair.1 y List.mem_cons_self
        rcases List.mem_cons.mp hz with rfl | hz
        · exact hy heq
        · have hyz := htail.1 z hz
          rw [heq] at hyz
          exact hy (le_antisymm hyz hxy)
      constructor
      · rw [List.takeWhile_cons_of_neg (by simpa using hy), eq_comm, List.filter_eq_nil_iff]
        intro z hz
        simpa using hne z hz
      · rw [List.dropWhile_cons_of_neg (by simpa using hy), eq_comm, List.filter_eq_self]
        intro z hz
        simpa using hne z hz

end sorted
end DistributedLabs.Grouping
