import Mathlib.Algebra.BigOperators.Group.Finset.Basic
import Mathlib.Algebra.BigOperators.Group.Finset.Piecewise
import Mathlib.Algebra.BigOperators.Ring.Finset
import Mathlib.Algebra.Order.BigOperators.Group.Finset
import Mathlib.Data.Fintype.Card
import Mathlib.Logic.Function.Basic
import Mathlib.Tactic.Ring

set_option autoImplicit false

/-!
# Items assigned to owners, one moved at a time

The load of an owner is the number of its items. Moving an item from an owner to one with
at least two items less makes the loads more even: the sum of their squares falls. A greedy
rule that takes from a fullest and gives to an emptiest owner also never gives to an owner
that was within one of the maximum all along.
-/
namespace DistributedLabs.LoadBalance

variable {ι G : Type} [Fintype ι] [DecidableEq G]

def load (f : ι → G) (g : G) : ℕ := (Finset.univ.filter (fun i => f i = g)).card

def Level (S : Finset G) (f : ι → G) : Prop := ∀ g ∈ S, ∀ h ∈ S, load f g ≤ load f h + 1

def Fullest (S : Finset G) (f : ι → G) (g : G) : Prop := g ∈ S ∧ ∀ h ∈ S, load f h ≤ load f g

def Emptiest (S : Finset G) (f : ι → G) (g : G) : Prop := g ∈ S ∧ ∀ h ∈ S, load f g ≤ load f h

variable {S O : Finset G} {f : ι → G} {i : ι} {a b g : G}

theorem exists_of_load_pos (h : 0 < load f g) : ∃ i, f i = g := by
  obtain ⟨i, hi⟩ := Finset.card_pos.mp h
  exact ⟨i, (Finset.mem_filter.mp hi).2⟩

section update
variable [DecidableEq ι]

theorem load_update_other (ha : g ≠ f i) (hb : g ≠ b) :
    load (Function.update f i b) g = load f g := by
  unfold load
  congr 1
  ext j
  by_cases hj : j = i
  · subst hj
    simp [hb.symm, ha.symm]
  · simp [Function.update_of_ne hj]

theorem load_update_new (h : f i ≠ b) : load (Function.update f i b) b = load f b + 1 := by
  have hset : Finset.univ.filter (fun j => Function.update f i b j = b) =
      insert i (Finset.univ.filter (fun j => f j = b)) := by
    ext j
    by_cases hj : j = i
    · simp [hj]
    · simp [hj]
  unfold load
  rw [hset, Finset.card_insert_of_notMem (by simp [h])]

theorem load_update_old (h : f i ≠ b) :
    load (Function.update f i b) (f i) + 1 = load f (f i) := by
  have hset : Finset.univ.filter (fun j => f j = f i) =
      insert i (Finset.univ.filter (fun j => Function.update f i b j = f i)) := by
    ext j
    by_cases hj : j = i
    · simp [hj]
    · simp [hj]
  unfold load
  rw [hset, Finset.card_insert_of_notMem (by simp [h.symm])]

theorem load_update_le (h : f i ≠ b) (hg : g ≠ b) : load (Function.update f i b) g ≤ load f g := by
  by_cases ha : g = f i
  · have hold := load_update_old h
    rw [ha]
    omega
  · rw [load_update_other ha hg]

end update

section potential

def potential (S : Finset G) (f : ι → G) : ℕ := ∑ g ∈ S, load f g * load f g

theorem sum_load_le (S : Finset G) (f : ι → G) : ∑ g ∈ S, load f g ≤ Fintype.card ι := by
  have hload : ∀ g ∈ S, load f g = ∑ i, if f i = g then 1 else 0 := by
    intro g _
    rw [load, Finset.card_filter]
  rw [Finset.sum_congr rfl hload, Finset.sum_comm, ← Finset.card_univ, Finset.card_eq_sum_ones]
  apply Finset.sum_le_sum
  intro i _
  rw [Finset.sum_ite_eq]
  split_ifs <;> omega

theorem load_le_card (f : ι → G) (g : G) : load f g ≤ Fintype.card ι := Finset.card_le_univ _

theorem potential_le (S : Finset G) (f : ι → G) :
    potential S f ≤ Fintype.card ι * Fintype.card ι := by
  calc
    potential S f ≤ ∑ g ∈ S, load f g * Fintype.card ι :=
      Finset.sum_le_sum (fun g _ => Nat.mul_le_mul_left _ (load_le_card f g))
    _ = (∑ g ∈ S, load f g) * Fintype.card ι := (Finset.sum_mul ..).symm
    _ ≤ Fintype.card ι * Fintype.card ι := Nat.mul_le_mul_right _ (sum_load_le S f)

theorem sum_two_changed {F E : G → ℕ} (ha : a ∈ S) (hb : b ∈ S) (hab : a ≠ b)
    (h : ∀ g, g ≠ a → g ≠ b → E g = F g) :
    ∑ g ∈ S, E g + (F a + F b) = ∑ g ∈ S, F g + (E a + E b) := by
  have hb' : b ∈ S.erase a := Finset.mem_erase.mpr ⟨hab.symm, hb⟩
  have hrest : ∑ g ∈ (S.erase a).erase b, E g = ∑ g ∈ (S.erase a).erase b, F g := by
    apply Finset.sum_congr rfl
    intro g hg
    obtain ⟨hgb, hg⟩ := Finset.mem_erase.mp hg
    exact h g (Finset.mem_erase.mp hg).1 hgb
  rw [← Finset.add_sum_erase S E ha, ← Finset.add_sum_erase (S.erase a) E hb', hrest,
    ← Finset.add_sum_erase S F ha, ← Finset.add_sum_erase (S.erase a) F hb']
  ring

theorem potential_move [DecidableEq ι] (ha : f i ∈ S) (hb : b ∈ S) (h : load f b + 2 ≤ load f (f i)) :
    potential S (Function.update f i b) < potential S f := by
  have hne : f i ≠ b := by
    rintro rfl
    omega
  have hsum := sum_two_changed (F := fun g => load f g * load f g)
    (E := fun g => load (Function.update f i b) g * load (Function.update f i b) g) ha hb hne
    (fun g hga hgb => by rw [load_update_other hga hgb])
  have hold := load_update_old hne
  have hnew := load_update_new hne
  change potential S (Function.update f i b) + _ = potential S f + _ at hsum
  obtain ⟨k, hk⟩ : ∃ k, load f (f i) = load f b + 2 + k := ⟨load f (f i) - (load f b + 2), by omega⟩
  have hold' : load (Function.update f i b) (f i) = load f b + 1 + k := by omega
  simp only [hnew, hk, hold'] at hsum
  have hsquares : (load f b + 2 + k) * (load f b + 2 + k) + load f b * load f b =
      (load f b + 1 + k) * (load f b + 1 + k) + (load f b + 1) * (load f b + 1) + (2 * k + 2) := by
    ring
  omega

end potential

section greedy

theorem Level.assign [DecidableEq ι] (h : Level S f) (hi : f i ∉ S) (hb : Emptiest S f b) :
    Level S (Function.update f i b) := by
  have hne : ∀ g ∈ S, g ≠ f i := by
    rintro g hg rfl
    exact hi hg
  have hnew := load_update_new (hne b hb.1).symm
  intro g hg k hk
  have hgk := h g hg k hk
  have hmin := hb.2 k hk
  have hkle : load f k ≤ load (Function.update f i b) k := by
    by_cases hkb : k = b
    · rw [hkb, hnew]
      omega
    · rw [load_update_other (hne k hk) hkb]
  by_cases hgb : g = b
  · rw [hgb, hnew]
    omega
  · rw [load_update_other (hne g hg) hgb]
    omega

/-- Every owner in `O` has at most one item less than any owner in `S`. -/
def Ahead (O S : Finset G) (f : ι → G) : Prop := ∀ o ∈ O, ∀ g ∈ S, load f g ≤ load f o + 1

theorem Ahead.not_emptiest (h : Ahead O S f) (ha : a ∈ S) (hab : load f b + 2 ≤ load f a) :
    b ∉ O := by
  intro hb
  have := h b hb a ha
  omega

/-- The greedy move takes at most one item from such an owner, and gives it none. -/
theorem Ahead.move [DecidableEq ι] (h : Ahead O S f) (ha : Fullest S f (f i))
    (hab : load f b + 2 ≤ load f (f i)) : Ahead O S (Function.update f i b) := by
  have hne : f i ≠ b := by
    rintro rfl
    omega
  have hold := load_update_old hne
  have hnew := load_update_new hne
  have hlow : ∀ o ∈ O, load f (f i) ≤ load (Function.update f i b) o + 1 := by
    intro o ho
    by_cases hoa : o = f i
    · rw [hoa]
      omega
    · have hob : o ≠ b := fun e => h.not_emptiest ha.1 hab (e ▸ ho)
      rw [load_update_other hoa hob]
      exact h o ho (f i) ha.1
  intro o ho g hg
  have ho' := hlow o ho
  by_cases hgb : g = b
  · rw [hgb, hnew]
    omega
  · have hg' := load_update_le hne hgb
    have hmax := ha.2 g hg
    omega

end greedy

section keepBest
variable {α β : Type} (better : β → β → Prop) [DecidableRel better] (v : α → β)

/-- The loop that keeps the first of the best elements it has seen, with its value. -/
def keepBest : List α → α × β → α × β
  | [], r => r
  | a :: l, r => keepBest l (if better (v a) r.2 then (a, v a) else r)

variable (hasymm : ∀ x y, better x y → ¬ better y x)
  (htrans : ∀ x y z, ¬ better x y → ¬ better y z → ¬ better x z)
include hasymm htrans

/-- Nothing is better than the result, neither the start nor what the loop has seen. -/
theorem keepBest_best (l : List α) (r : α × β) :
    ¬ better r.2 (keepBest better v l r).2 ∧ ∀ a ∈ l, ¬ better (v a) (keepBest better v l r).2 := by
  induction l generalizing r with
  | nil => exact ⟨fun h => hasymm _ _ h h, by simp⟩
  | cons a l ih =>
    simp only [keepBest, List.mem_cons, forall_eq_or_imp]
    by_cases ha : better (v a) r.2
    · rw [if_pos ha]
      have hrest := ih (a, v a)
      exact ⟨htrans _ _ _ (hasymm _ _ ha) hrest.1, hrest⟩
    · rw [if_neg ha]
      have hrest := ih r
      exact ⟨hrest.1, htrans _ _ _ ha hrest.1, hrest.2⟩

omit hasymm htrans in
theorem keepBest_from (l : List α) (r : α × β) :
    keepBest better v l r = r ∨ ∃ a ∈ l, keepBest better v l r = (a, v a) := by
  induction l generalizing r with
  | nil => exact .inl rfl
  | cons a l ih =>
    rw [keepBest]
    split_ifs
    · rcases ih (a, v a) with h | ⟨b, hb, h⟩
      · exact .inr ⟨a, List.mem_cons_self, h⟩
      · exact .inr ⟨b, List.mem_cons_of_mem a hb, h⟩
    · rcases ih r with h | ⟨b, hb, h⟩
      · exact .inl h
      · exact .inr ⟨b, List.mem_cons_of_mem a hb, h⟩

theorem keepBest_spec {l : List α} {r : α × β} {b : α} (hb : b ∈ l) (hbetter : better (v b) r.2) :
    ∃ a ∈ l, keepBest better v l r = (a, v a) ∧ ∀ x ∈ l, ¬ better (v x) (v a) := by
  have hbest := (keepBest_best better v hasymm htrans l r).2
  rcases keepBest_from better v l r with h | ⟨a, ha, h⟩
  · rw [h] at hbest
    exact absurd hbetter (hbest b hb)
  · rw [h] at hbest
    exact ⟨a, ha, h, hbest⟩

end keepBest
end DistributedLabs.LoadBalance
