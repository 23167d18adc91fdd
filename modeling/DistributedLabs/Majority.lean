import Mathlib.Data.Fintype.Card
import Mathlib.Data.List.OfFn
import Mathlib.Order.Interval.Finset.Fin
import Mathlib.Tactic.Common
import DistributedLabs.TermLedger

set_option autoImplicit false

/-!
# Quorums of a fixed set of nodes

A vote needs more than half of the nodes. A commit needs only the upper half of
the sorted acknowledgements, which for an even number is exactly half; the two
still meet.
-/
namespace DistributedLabs.Majority

theorem meet_of_card {n : ℕ} (A B : Finset (Fin n)) (h : n < A.card + B.card) :
    ∃ v, v ∈ A ∧ v ∈ B := by
  by_contra hn
  have hd : Disjoint A B := by
    rw [Finset.disjoint_left]
    intro v ha hb
    exact hn ⟨v, ha, hb⟩
  have hc := Finset.card_le_univ (A ∪ B)
  rw [Finset.card_union_of_disjoint hd, Fintype.card_fin] at hc
  omega

def quorums (n : ℕ) : TermLedger.Quorums (Fin n) where
  votes A := n / 2 < A.card
  commits B := n - n / 2 ≤ B.card
  meet A B hA hB := meet_of_card A B (by omega)

theorem votes_commits {n : ℕ} {A : Finset (Fin n)} (h : (quorums n).votes A) :
    (quorums n).commits A := by
  change n / 2 < A.card at h
  change n - n / 2 ≤ A.card
  omega

theorem getElem_le_of_sorted {l : List ℕ} (hs : l.Pairwise (· ≤ ·)) {i j : ℕ} (hij : i ≤ j)
    (hj : j < l.length) : l[i] ≤ l[j] := by
  rcases hij.eq_or_lt with rfl | hlt
  · exact le_refl _
  · exact List.pairwise_iff_getElem.mp hs i j (hlt.trans hj) hj hlt

/-- What stands at position `k` of a sorted list is at least `N` exactly when the values from `N` up
fill everything from that position on. -/
theorem le_getElem_iff (l : List ℕ) (hs : l.Pairwise (· ≤ ·)) (k N : ℕ) (hk : k < l.length) :
    N ≤ l[k] ↔ l.length - k ≤ (l.filter (fun x => decide (N ≤ x))).length := by
  constructor
  · intro hle
    have hall : ∀ x ∈ l.drop k, decide (N ≤ x) = true := by
      intro x hx
      obtain ⟨j, hj, rfl⟩ := List.mem_drop_iff_getElem.mp hx
      have hkj := getElem_le_of_sorted hs (Nat.le_add_left k j) (by omega)
      simp only [decide_eq_true_eq]
      exact hle.trans (by simpa only [Nat.add_comm] using hkj)
    calc
      l.length - k = (l.drop k).length := (List.length_drop ..).symm
      _ = ((l.drop k).filter (fun x => decide (N ≤ x))).length := by
        rw [List.filter_eq_self.mpr hall]
      _ ≤ (l.filter (fun x => decide (N ≤ x))).length :=
        ((List.drop_sublist k l).filter _).length_le
  · intro hlen
    by_contra hlt
    -- nothing up to position `k` passes the test, so too little is left to fill the rest
    have hnil : (l.take (k + 1)).filter (fun x => decide (N ≤ x)) = [] := by
      apply List.filter_eq_nil_iff.mpr
      intro x hx
      obtain ⟨j, hj, rfl⟩ := List.mem_take_iff_getElem.mp hx
      have hjk := getElem_le_of_sorted hs (show j ≤ k by omega) hk
      simp only [decide_eq_true_eq]
      omega
    have hdrop := List.length_filter_le (fun x => decide (N ≤ x)) (l.drop (k + 1))
    have hsplit : l.filter (fun x => decide (N ≤ x)) =
        (l.drop (k + 1)).filter (fun x => decide (N ≤ x)) := by
      conv_lhs => rw [← List.take_append_drop (k + 1) l, List.filter_append, hnil, List.nil_append]
    rw [hsplit] at hlen
    rw [List.length_drop] at hdrop
    omega

def holders {n : ℕ} (f : Fin n → ℕ) (N : ℕ) : ℕ := (Finset.univ.filter (fun i => N ≤ f i)).card

theorem length_filter_ofFn {n : ℕ} (f : Fin n → ℕ) (N : ℕ) :
    ((List.ofFn f).filter (fun x => decide (N ≤ x))).length = holders f N := by
  rw [← List.countP_eq_length_filter, List.ofFn_eq_map, List.countP_map,
    List.countP_eq_length_filter, holders, Finset.card_def]
  rfl

theorem le_sorted_iff {n : ℕ} (f : Fin n → ℕ) (k K N : ℕ)
    (hk : ((List.ofFn f).insertionSort (· ≤ ·))[k]? = some K) : N ≤ K ↔ n - k ≤ holders f N := by
  have hp := List.perm_insertionSort (· ≤ ·) (List.ofFn f)
  obtain ⟨hlt, rfl⟩ := List.getElem?_eq_some_iff.mp hk
  rw [le_getElem_iff _ (List.pairwise_insertionSort (· ≤ ·) _) k N hlt, (hp.filter _).length_eq,
    hp.length_eq, List.length_ofFn, length_filter_ofFn]

theorem card_of_sorted {n : ℕ} (f : Fin n → ℕ) (k N : ℕ)
    (hk : ((List.ofFn f).insertionSort (· ≤ ·))[k]? = some N) :
    n - k ≤ (Finset.univ.filter (fun i => N ≤ f i)).card :=
  (le_sorted_iff f k N N hk).mp (le_refl N)

end DistributedLabs.Majority
