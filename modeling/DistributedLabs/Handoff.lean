import Mathlib.Data.Int.Order.Basic
import Mathlib.Logic.Function.Basic

set_option autoImplicit false

/-!
# Handing one object from site to site under increasing numbers

Every site keeps a record of the object. A plan names the owner after each change and the
number of the change. To carry out a change its old owner is frozen, a copy is installed
at the new one and the old record is deleted; requests of all changes up to the current
one may be repeated, in any order, at any time.
-/
namespace DistributedLabs.Handoff

inductive Hold where
  | notOwned | serving | frozen
deriving DecidableEq

structure Rec (D : Type) where
  data : D
  state : Hold
  num : ℤ

inductive Op (D : Type) where
  | freeze (n : ℤ)
  | install (d : D) (n : ℤ)
  | delete (n : ℤ)

variable {D G : Type}

/-- A record after a request; `empty` is what a deleted record holds. -/
def Rec.apply (empty : D) (r : Rec D) : Op D → Rec D
  | .freeze n =>
    if n < r.num then r
    else ⟨r.data, if r.state = .serving then .frozen else r.state, n⟩
  | .install d n => if n ≤ r.num then r else ⟨d, .serving, n⟩
  | .delete n => if n < r.num then r else ⟨empty, .notOwned, n⟩

/-- What a freeze returns: nothing if it is late or there is nothing to hand over. -/
def Rec.handed (r : Rec D) (n : ℤ) : Option D :=
  if n < r.num then none
  else if r.state = .notOwned then none
  else some r.data

section Apply

variable {empty : D} {r : Rec D} {n : ℤ}

theorem Rec.freeze_late (h : n < r.num) : r.apply empty (.freeze n) = r := if_pos h

theorem Rec.freeze_of_le (h : r.num ≤ n) : r.apply empty (.freeze n) =
    ⟨r.data, if r.state = .serving then .frozen else r.state, n⟩ :=
  if_neg (not_lt.mpr h)

theorem Rec.install_late {d : D} (h : n ≤ r.num) : r.apply empty (.install d n) = r := if_pos h

theorem Rec.install_of_lt {d : D} (h : r.num < n) :
    r.apply empty (.install d n) = ⟨d, .serving, n⟩ :=
  if_neg (not_le.mpr h)

theorem Rec.delete_late (h : n < r.num) : r.apply empty (.delete n) = r := if_pos h

theorem Rec.delete_of_le (h : r.num ≤ n) :
    r.apply empty (.delete n) = ⟨empty, .notOwned, n⟩ :=
  if_neg (not_lt.mpr h)

theorem Rec.num_le_apply (empty : D) (r : Rec D) (op : Op D) : r.num ≤ (r.apply empty op).num := by
  cases op with
  | freeze n =>
    rcases lt_or_ge n r.num with h | h
    · rw [Rec.freeze_late h]
    · rw [Rec.freeze_of_le h]
      exact h
  | install d n =>
    rcases le_or_gt n r.num with h | h
    · rw [Rec.install_late h]
    · rw [Rec.install_of_lt h]
      exact le_of_lt h
  | delete n =>
    rcases lt_or_ge n r.num with h | h
    · rw [Rec.delete_late h]
    · rw [Rec.delete_of_le h]
      exact h

theorem Rec.apply_deleted (empty : D) (n : ℤ) (op : Op D) :
    n < ((⟨empty, .notOwned, n⟩ : Rec D).apply empty op).num ∨
      (⟨empty, .notOwned, n⟩ : Rec D).apply empty op = ⟨empty, .notOwned, n⟩ := by
  cases op with
  | freeze m =>
    rcases lt_trichotomy m n with h | rfl | h
    · exact .inr (Rec.freeze_late h)
    · exact .inr (Rec.freeze_of_le (le_refl m))
    · rw [Rec.freeze_of_le (le_of_lt h)]
      exact .inl h
  | install d m =>
    rcases le_or_gt m n with h | h
    · exact .inr (Rec.install_late h)
    · rw [Rec.install_of_lt h]
      exact .inl h
  | delete m =>
    rcases lt_trichotomy m n with h | rfl | h
    · exact .inr (Rec.delete_late h)
    · exact .inr (Rec.delete_of_le (le_refl m))
    · rw [Rec.delete_of_le (le_of_lt h)]
      exact .inl h

/-- What a request leaves behind for good: to carry it out once more would change nothing. -/
def Rec.Spent (empty : D) (r : Rec D) : Op D → Prop
  | .freeze n => n < r.num ∨ (n = r.num ∧ r.state ≠ .serving)
  | .install _ n => n ≤ r.num
  | .delete n => n < r.num ∨ r = ⟨empty, .notOwned, n⟩

theorem Rec.Spent.fixed {op : Op D} (h : r.Spent empty op) : r.apply empty op = r := by
  cases op with
  | freeze n =>
    rcases h with hlt | ⟨rfl, hs⟩
    · exact Rec.freeze_late hlt
    · rw [Rec.freeze_of_le (le_refl _), if_neg hs]
  | install d n => exact Rec.install_late h
  | delete n =>
    rcases h with hlt | rfl
    · exact Rec.delete_late hlt
    · exact Rec.delete_of_le (le_refl _)

theorem Rec.spent_apply (empty : D) (r : Rec D) (op : Op D) : (r.apply empty op).Spent empty op := by
  cases op with
  | freeze n =>
    rcases lt_or_ge n r.num with h | h
    · rw [Rec.freeze_late h]
      exact .inl h
    · rw [Rec.freeze_of_le h]
      refine .inr ⟨rfl, ?_⟩
      dsimp only
      split_ifs with hs
      · nofun
      · exact hs
  | install d n =>
    rcases le_or_gt n r.num with h | h
    · rw [Rec.install_late h]
      exact h
    · rw [Rec.install_of_lt h]
      exact le_refl n
  | delete n =>
    rcases lt_or_ge n r.num with h | h
    · rw [Rec.delete_late h]
      exact .inl h
    · rw [Rec.delete_of_le h]
      exact .inr rfl

theorem Rec.apply_stays (op : Op D) (hs : r.state ≠ .serving) :
    r.num < (r.apply empty op).num ∨
      (r.apply empty op).num = r.num ∧ (r.apply empty op).state ≠ .serving := by
  cases op with
  | freeze m =>
    rcases lt_trichotomy m r.num with h | rfl | h
    · exact .inr (by rw [Rec.freeze_late h]; exact ⟨rfl, hs⟩)
    · exact .inr (by rw [Rec.freeze_of_le (le_refl _), if_neg hs]; exact ⟨rfl, hs⟩)
    · exact .inl (by rw [Rec.freeze_of_le (le_of_lt h)]; exact h)
  | install d m =>
    rcases le_or_gt m r.num with h | h
    · exact .inr (by rw [Rec.install_late h]; exact ⟨rfl, hs⟩)
    · exact .inl (by rw [Rec.install_of_lt h]; exact h)
  | delete m =>
    rcases lt_trichotomy m r.num with h | rfl | h
    · exact .inr (by rw [Rec.delete_late h]; exact ⟨rfl, hs⟩)
    · exact .inr (by rw [Rec.delete_of_le (le_refl _)]; exact ⟨rfl, nofun⟩)
    · exact .inl (by rw [Rec.delete_of_le (le_of_lt h)]; exact h)

theorem Rec.Spent.apply {op : Op D} (h : r.Spent empty op) (op' : Op D) :
    (r.apply empty op').Spent empty op := by
  have hle := Rec.num_le_apply empty r op'
  cases op with
  | freeze n =>
    rcases h with h | ⟨rfl, hs⟩
    · exact .inl (lt_of_lt_of_le h hle)
    · rcases Rec.apply_stays op' hs with hlt | ⟨hnum, hs'⟩
      · exact .inl hlt
      · exact .inr ⟨hnum.symm, hs'⟩
  | install d n => exact le_trans h hle
  | delete n =>
    rcases h with h | rfl
    · exact .inl (lt_of_lt_of_le h hle)
    · exact Rec.apply_deleted empty n op'

theorem Rec.Spent.write {op : Op D} (h : r.Spent empty op) (hs : r.state = .serving) (d : D) :
    (⟨d, r.state, r.num⟩ : Rec D).Spent empty op := by
  cases op with
  | freeze n => exact h
  | install d' n => exact h
  | delete n =>
    rcases h with h | rfl
    · exact .inl h
    · cases hs

end Apply

structure Plan (G : Type) where
  owner : ℕ → G
  num : ℕ → ℤ
  increasing : ∀ k, num k < num (k + 1)

def Plan.Moves (P : Plan G) (j : ℕ) : Prop := P.owner j ≠ P.owner (j + 1)

def Aside (n : ℤ) (r : Rec D) : Prop := r.state = .notOwned ∧ r.num < n

/-- Where the content `d` is when all changes before number `k` are over and the next one
    may be under way. -/
inductive Placed (P : Plan G) (k : ℕ) (d : D) (recs : G → Rec D) : Prop where
  | resting (here : (recs (P.owner k)).data = d ∧ (recs (P.owner k)).state = .serving)
      (low : ∀ g, (recs g).num < P.num (k + 1))
      (others : ∀ g, g ≠ P.owner k → (recs g).state = .notOwned)
  | frozen (moves : P.Moves k) (here : recs (P.owner k) = ⟨d, .frozen, P.num (k + 1)⟩)
      (others : ∀ g, g ≠ P.owner k → Aside (P.num (k + 1)) (recs g))
  | installed (moves : P.Moves k)
      (here : recs (P.owner (k + 1)) = ⟨d, .serving, P.num (k + 1)⟩)
      (source : (recs (P.owner k)).state = .frozen ∧ (recs (P.owner k)).num = P.num (k + 1))
      (others : ∀ g, g ≠ P.owner k → g ≠ P.owner (k + 1) → Aside (P.num (k + 1)) (recs g))
  | deleted (moves : P.Moves k)
      (here : recs (P.owner (k + 1)) = ⟨d, .serving, P.num (k + 1)⟩)
      (source : (recs (P.owner k)).state = .notOwned ∧ (recs (P.owner k)).num = P.num (k + 1))
      (others : ∀ g, g ≠ P.owner k → g ≠ P.owner (k + 1) → Aside (P.num (k + 1)) (recs g))

def Installed (P : Plan G) (j : ℕ) (recs : G → Rec D) : Prop :=
  P.num (j + 1) ≤ (recs (P.owner (j + 1))).num

def Deleted (P : Plan G) (j : ℕ) (empty : D) (recs : G → Rec D) : Prop :=
  P.num (j + 1) < (recs (P.owner j)).num ∨
    recs (P.owner j) = ⟨empty, .notOwned, P.num (j + 1)⟩

/-- To install `d` for change `j` does no harm: it is too late, or `d` is what was frozen. -/
def Ready (P : Plan G) (j : ℕ) (d : D) (recs : G → Rec D) : Prop :=
  Installed P j recs ∨ recs (P.owner j) = ⟨d, .frozen, P.num (j + 1)⟩

def Allowed (P : Plan G) (j : ℕ) (recs : G → Rec D) (g : G) : Op D → Prop
  | .freeze n => g = P.owner j ∧ n = P.num (j + 1)
  | .install d n => g = P.owner (j + 1) ∧ n = P.num (j + 1) ∧ Ready P j d recs
  | .delete n => g = P.owner j ∧ n = P.num (j + 1) ∧ Installed P j recs

structure Settled (P : Plan G) (k : ℕ) (empty d : D) (recs : G → Rec D) : Prop where
  placed : Placed P k d recs
  past : ∀ j, j < k → P.Moves j → Installed P j recs ∧ Deleted P j empty recs

/-- Records after which everything that was achieved for the changes up to `k` still is. -/
structure Keeps (P : Plan G) (k : ℕ) (empty : D) (recs recs' : G → Rec D) : Prop where
  installed : ∀ j, Installed P j recs → Installed P j recs'
  deleted : ∀ j, Deleted P j empty recs → Deleted P j empty recs'
  ready : ∀ j, j ≤ k → P.Moves j → ∀ d, Ready P j d recs → Ready P j d recs'

theorem Keeps.refl (P : Plan G) (k : ℕ) (empty : D) (recs : G → Rec D) : Keeps P k empty recs recs :=
  ⟨fun _ h => h, fun _ h => h, fun _ _ _ _ h => h⟩

theorem Keeps.allowed {P : Plan G} {j k : ℕ} {empty : D} {recs recs' : G → Rec D}
    (h : Keeps P k empty recs recs') (hj : j ≤ k) (hm : P.Moves j) {g : G} {op : Op D}
    (ha : Allowed P j recs g op) : Allowed P j recs' g op := by
  cases op with
  | freeze n => exact ha
  | install d n => exact ⟨ha.1, ha.2.1, h.ready j hj hm d ha.2.2⟩
  | delete n => exact ⟨ha.1, ha.2.1, h.installed j ha.2.2⟩

section Requests

variable [DecidableEq G] {P : Plan G} {j k : ℕ} {empty d : D} {recs : G → Rec D}

def perform (empty : D) (recs : G → Rec D) (g : G) (op : Op D) : G → Rec D :=
  Function.update recs g ((recs g).apply empty op)

theorem perform_self (g : G) (op : Op D) :
    perform empty recs g op g = (recs g).apply empty op :=
  Function.update_self _ _ _

theorem perform_other {g h : G} (op : Op D) (hne : h ≠ g) :
    perform empty recs g op h = recs h :=
  Function.update_of_ne hne _ _

theorem perform_of_fixed {g : G} {op : Op D} (h : (recs g).apply empty op = recs g) :
    perform empty recs g op = recs := by
  unfold perform
  rw [h]
  exact Function.update_eq_self _ _

theorem num_le_perform (g h : G) (op : Op D) :
    (recs h).num ≤ (perform empty recs g op h).num := by
  by_cases heq : h = g
  · subst heq
    rw [perform_self]
    exact Rec.num_le_apply _ _ _
  · rw [perform_other op heq]

theorem Installed.perform (h : Installed P j recs) (g : G) (op : Op D) :
    Installed P j (perform empty recs g op) :=
  le_trans (b := (recs _).num) h (num_le_perform _ _ _)

theorem Deleted.perform (h : Deleted P j empty recs) (g : G) (op : Op D) :
    Deleted P j empty (perform empty recs g op) := by
  rcases h with hlt | heq
  · exact .inl (lt_of_lt_of_le hlt (num_le_perform _ _ _))
  · by_cases hg : P.owner j = g
    · subst hg
      unfold Deleted
      rw [perform_self, heq]
      exact Rec.apply_deleted _ _ _
    · right
      rw [perform_other op hg]
      exact heq

omit [DecidableEq G] in
/-- Requests of a change that is over change nothing. -/
theorem Allowed.past_fixed {g : G} {op : Op D} (ha : Allowed P j recs g op)
    (hi : Installed P j recs) (hd : Deleted P j empty recs) :
    (recs g).apply empty op = recs g := by
  cases op with
  | freeze n =>
    obtain ⟨rfl, rfl⟩ := ha
    rcases hd with hlt | heq
    · exact Rec.freeze_late hlt
    · rw [heq]
      exact Rec.freeze_of_le (le_refl (P.num (j + 1)))
  | install d n =>
    obtain ⟨rfl, rfl, -⟩ := ha
    exact Rec.install_late hi
  | delete n =>
    obtain ⟨rfl, rfl, -⟩ := ha
    rcases hd with hlt | heq
    · exact Rec.delete_late hlt
    · rw [heq]
      exact Rec.delete_of_le (le_refl (P.num (j + 1)))

theorem Placed.freeze (h : Placed P k d recs) (hm : P.Moves k) :
    Placed P k d (perform empty recs (P.owner k) (.freeze (P.num (k + 1)))) := by
  have fixed (hnum : (recs (P.owner k)).num = P.num (k + 1))
      (hstate : (recs (P.owner k)).state ≠ .serving) :
      Placed P k d (perform empty recs (P.owner k) (.freeze (P.num (k + 1)))) := by
    rw [perform_of_fixed]
    · exact h
    · rw [Rec.freeze_of_le (le_of_eq hnum), if_neg hstate, ← hnum]
  cases h with
  | resting here low others =>
    refine .frozen hm ?_ (fun g hg => ?_)
    · rw [perform_self, Rec.freeze_of_le (le_of_lt (low _)), here.1, if_pos here.2]
    · rw [perform_other _ hg]
      exact ⟨others g hg, low g⟩
  | frozen moves here others =>
    refine fixed ?_ ?_
    · rw [here]
    · rw [here]
      exact Hold.noConfusion
  | installed moves here source others =>
    refine fixed source.2 ?_
    rw [source.1]
    exact Hold.noConfusion
  | deleted moves here source others =>
    refine fixed source.2 ?_
    rw [source.1]
    exact Hold.noConfusion

theorem Placed.install (h : Placed P k d recs) (hm : P.Moves k) {d' : D} (hr : Ready P k d' recs) :
    Placed P k d (perform empty recs (P.owner (k + 1)) (.install d' (P.num (k + 1)))) := by
  have late (hi : Installed P k recs) :
      Placed P k d (perform empty recs (P.owner (k + 1)) (.install d' (P.num (k + 1)))) := by
    rw [perform_of_fixed (Rec.install_late hi)]
    exact h
  rcases hr with hi | hsrc
  · exact late hi
  · cases h with
    | resting here low others =>
      have hlt := low (P.owner k)
      rw [hsrc] at hlt
      exact absurd hlt (lt_irrefl _)
    | frozen moves here others =>
      obtain rfl : d = d' := by
        rw [here] at hsrc
        exact congrArg Rec.data hsrc
      have hB := others (P.owner (k + 1)) (Ne.symm hm)
      refine .installed hm ?_ ?_ (fun g hA hB => ?_)
      · rw [perform_self, Rec.install_of_lt hB.2]
      · rw [perform_other _ hm, here]
        exact ⟨rfl, rfl⟩
      · rw [perform_other _ hB]
        exact others g hA
    | installed moves here source others =>
      refine late ?_
      unfold Installed
      rw [here]
    | deleted moves here source others =>
      refine late ?_
      unfold Installed
      rw [here]

theorem Placed.delete (h : Placed P k d recs) (hm : P.Moves k) (hi : Installed P k recs) :
    Placed P k d (perform empty recs (P.owner k) (.delete (P.num (k + 1)))) := by
  have gone (here : recs (P.owner (k + 1)) = ⟨d, .serving, P.num (k + 1)⟩)
      (hnum : (recs (P.owner k)).num = P.num (k + 1))
      (others : ∀ g, g ≠ P.owner k → g ≠ P.owner (k + 1) → Aside (P.num (k + 1)) (recs g)) :
      Placed P k d (perform empty recs (P.owner k) (.delete (P.num (k + 1)))) := by
    refine .deleted hm ?_ ?_ (fun g hA hB => ?_)
    · rw [perform_other _ (Ne.symm hm), here]
    · rw [perform_self, Rec.delete_of_le (le_of_eq hnum)]
      exact ⟨rfl, rfl⟩
    · rw [perform_other _ hA]
      exact others g hA hB
  cases h with
  | resting here low others => exact absurd (low (P.owner (k + 1))) (not_lt.mpr hi)
  | frozen moves here others =>
    exact absurd (others (P.owner (k + 1)) (Ne.symm hm)).2 (not_lt.mpr hi)
  | installed moves here source others => exact gone here source.2 others
  | deleted moves here source others => exact gone here source.2 others

/-- A request of a change up to the current one keeps everything in its place. -/
theorem Settled.perform (h : Settled P k empty d recs) (hj : j ≤ k) (hm : P.Moves j) {g : G}
    {op : Op D} (ha : Allowed P j recs g op) :
    Settled P k empty d (perform empty recs g op) := by
  refine ⟨?_, fun i hi hmi => ?_⟩
  · rcases Nat.lt_or_eq_of_le hj with hlt | rfl
    · obtain ⟨hinst, hdel⟩ := h.past j hlt hm
      rw [perform_of_fixed (ha.past_fixed hinst hdel)]
      exact h.placed
    · cases op with
      | freeze n =>
        obtain ⟨rfl, rfl⟩ := ha
        exact h.placed.freeze hm
      | install d' n =>
        obtain ⟨rfl, rfl, hr⟩ := ha
        exact h.placed.install hm hr
      | delete n =>
        obtain ⟨rfl, rfl, hi⟩ := ha
        exact h.placed.delete hm hi
  · obtain ⟨hinst, hdel⟩ := h.past i hi hmi
    exact ⟨hinst.perform g op, hdel.perform g op⟩

theorem Ready.perform (h : Settled P k empty d recs) {i : ℕ} (hi : i ≤ k) (hmi : P.Moves i)
    {d' : D} (hr : Ready P i d' recs) (hj : j ≤ k) (hm : P.Moves j) {g : G} {op : Op D}
    (ha : Allowed P j recs g op) : Ready P i d' (perform empty recs g op) := by
  rcases hr with hinst | hsrc
  · exact .inl (hinst.perform g op)
  · rcases Nat.lt_or_eq_of_le hi with hlt | rfl
    · exact .inl ((h.past i hlt hmi).1.perform g op)
    · rcases Nat.lt_or_eq_of_le hj with hlt | rfl
      · obtain ⟨hinst, hdel⟩ := h.past j hlt hm
        rw [perform_of_fixed (ha.past_fixed hinst hdel)]
        exact .inr hsrc
      · cases op with
        | freeze n =>
          obtain ⟨rfl, rfl⟩ := ha
          right
          rw [perform_self, hsrc]
          exact Rec.freeze_of_le (le_refl (P.num (j + 1)))
        | install d n =>
          obtain ⟨rfl, rfl, -⟩ := ha
          right
          rw [perform_other _ hm]
          exact hsrc
        | delete n =>
          obtain ⟨rfl, rfl, hinst⟩ := ha
          exact .inl (hinst.perform _ _)

theorem Settled.perform_keeps (h : Settled P k empty d recs) (hj : j ≤ k) (hm : P.Moves j) {g : G}
    {op : Op D} (ha : Allowed P j recs g op) :
    Keeps P k empty recs (Handoff.perform empty recs g op) where
  installed _ hi := hi.perform g op
  deleted _ hd := hd.perform g op
  ready _ hi hmi _ hr := hr.perform h hi hmi hj hm ha

omit [DecidableEq G] in
theorem Settled.frozen_after (h : Settled P k empty d recs) (hj : j ≤ k) (hm : P.Moves j) {g : G}
    {op : Op D} (ha : Allowed P j recs g op)
    (hf : ((recs g).apply empty op).state = .frozen) :
    (recs g).apply empty op = recs g ∨ (recs g).state = .serving ∧
      (recs g).num < ((recs g).apply empty op).num ∧
      ((recs g).apply empty op).data = (recs g).data := by
  rcases Nat.lt_or_eq_of_le hj with hlt | rfl
  · obtain ⟨hinst, hdel⟩ := h.past j hlt hm
    exact .inl (ha.past_fixed hinst hdel)
  · cases op with
    | freeze n =>
      obtain ⟨rfl, rfl⟩ := ha
      cases h.placed with
      | resting here low others =>
        rw [Rec.freeze_of_le (le_of_lt (low _))]
        exact .inr ⟨here.2, low _, rfl⟩
      | frozen moves here others =>
        rw [here]
        exact .inl (Rec.freeze_of_le (le_refl (P.num (j + 1))))
      | installed moves here source others =>
        left
        rw [Rec.freeze_of_le (le_of_eq source.2), source.1, if_neg Hold.noConfusion, ← source.1,
          ← source.2]
      | deleted moves here source others =>
        rw [Rec.freeze_of_le (le_of_eq source.2), source.1] at hf
        cases hf
    | install d' n =>
      rcases le_or_gt n (recs g).num with hn | hn
      · exact .inl (Rec.install_late hn)
      · rw [Rec.install_of_lt hn] at hf
        cases hf
    | delete n =>
      rcases lt_or_ge n (recs g).num with hn | hn
      · exact .inl (Rec.delete_late hn)
      · rw [Rec.delete_of_le hn] at hf
        cases hf

/-- What a freeze hands over may be installed. -/
theorem Settled.freeze_ready (h : Settled P k empty d recs) (hj : j ≤ k) (hm : P.Moves j) :
    Ready P j (((recs (P.owner j)).handed (P.num (j + 1))).getD empty)
      (Handoff.perform empty recs (P.owner j) (.freeze (P.num (j + 1)))) := by
  rcases Nat.lt_or_eq_of_le hj with hlt | rfl
  · exact .inl ((h.past j hlt hm).1.perform _ _)
  · have inst (hB : (recs (P.owner (j + 1))).num = P.num (j + 1)) : Installed P j recs :=
      le_of_eq hB.symm
    cases h.placed with
    | resting here low others =>
      right
      have hle := le_of_lt (low (P.owner j))
      rw [perform_self, Rec.freeze_of_le hle, Rec.handed, if_neg (not_lt.mpr hle), here.2]
      rfl
    | frozen moves here others =>
      right
      rw [perform_self, Rec.handed, here, Rec.freeze_of_le (le_refl (P.num (j + 1)))]
      simp only [lt_irrefl, if_false, reduceCtorEq, Option.getD_some]
    | installed moves here source others =>
      exact .inl ((inst (congrArg Rec.num here)).perform _ _)
    | deleted moves here source others =>
      exact .inl ((inst (congrArg Rec.num here)).perform _ _)

theorem installed_of_install (P : Plan G) (j : ℕ) (empty d : D) (recs : G → Rec D) :
    Installed P j (perform empty recs (P.owner (j + 1)) (.install d (P.num (j + 1)))) := by
  unfold Installed
  rw [perform_self]
  rcases le_or_gt (P.num (j + 1)) (recs (P.owner (j + 1))).num with h | h
  · rw [Rec.install_late h]
    exact h
  · rw [Rec.install_of_lt h]

theorem deleted_of_delete (P : Plan G) (j : ℕ) (empty : D) (recs : G → Rec D) :
    Deleted P j empty (perform empty recs (P.owner j) (.delete (P.num (j + 1)))) := by
  unfold Deleted
  rw [perform_self]
  rcases lt_or_ge (P.num (j + 1)) (recs (P.owner j)).num with h | h
  · rw [Rec.delete_late h]
    exact .inl h
  · rw [Rec.delete_of_le h]
    exact .inr rfl

end Requests

section Writes

variable [DecidableEq G] {P : Plan G} {j k : ℕ} {empty d : D} {recs : G → Rec D}

def write (recs : G → Rec D) (g : G) (d : D) : G → Rec D :=
  Function.update recs g ⟨d, (recs g).state, (recs g).num⟩

theorem write_self (g : G) (d : D) : write recs g d g = ⟨d, (recs g).state, (recs g).num⟩ :=
  Function.update_self _ _ _

theorem write_other {g h : G} (d : D) (hne : h ≠ g) : write recs g d h = recs h :=
  Function.update_of_ne hne _ _

theorem write_num (g h : G) (d : D) : (write recs g d h).num = (recs h).num := by
  by_cases heq : h = g
  · subst heq
    rw [write_self]
  · rw [write_other d heq]

omit [DecidableEq G] in
theorem eq_target_of_serving {n : ℤ} (source : (recs (P.owner k)).state ≠ .serving)
    (others : ∀ g, g ≠ P.owner k → g ≠ P.owner (k + 1) → Aside n (recs g)) {g : G}
    (hs : (recs g).state = .serving) : g = P.owner (k + 1) := by
  by_contra hne
  by_cases hg : g = P.owner k
  · rw [hg] at hs
    exact source hs
  · rw [(others g hg hne).1] at hs
    cases hs

omit [DecidableEq G] in
/-- Only one site is serving, and it has the content. -/
theorem Placed.serving (h : Placed P k d recs) : (∀ g, (recs g).state ≠ .serving) ∨
    ∃ g, (recs g).state = .serving ∧ (recs g).data = d ∧
      ∀ g', (recs g').state = .serving → g' = g := by
  cases h with
  | resting here low others =>
    refine .inr ⟨P.owner k, here.2, here.1, fun g' hs => ?_⟩
    by_contra hne
    rw [others g' hne] at hs
    cases hs
  | frozen moves here others =>
    refine .inl (fun g hs => ?_)
    by_cases hg : g = P.owner k
    · rw [hg, here] at hs
      cases hs
    · rw [(others g hg).1] at hs
      cases hs
  | installed moves here source others =>
    refine .inr ⟨P.owner (k + 1), by rw [here], by rw [here], fun g' hs => ?_⟩
    exact eq_target_of_serving (by rw [source.1]; exact Hold.noConfusion) others hs
  | deleted moves here source others =>
    refine .inr ⟨P.owner (k + 1), by rw [here], by rw [here], fun g' hs => ?_⟩
    exact eq_target_of_serving (by rw [source.1]; exact Hold.noConfusion) others hs

theorem Placed.write (h : Placed P k d recs) {g : G} (hs : (recs g).state = .serving) (d' : D) :
    Placed P k d' (write recs g d') := by
  cases h with
  | resting here low others =>
    obtain rfl : g = P.owner k := by
      by_contra hne
      rw [others g hne] at hs
      cases hs
    refine .resting ?_ (fun h => ?_) (fun h hne => ?_)
    · rw [write_self]
      exact ⟨rfl, here.2⟩
    · rw [write_num]
      exact low h
    · rw [write_other _ hne]
      exact others h hne
  | frozen moves here others =>
    by_cases hg : g = P.owner k
    · rw [hg, here] at hs
      cases hs
    · rw [(others g hg).1] at hs
      cases hs
  | installed moves here source others =>
    obtain rfl : g = P.owner (k + 1) :=
      eq_target_of_serving (by rw [source.1]; exact Hold.noConfusion) others hs
    refine .installed moves ?_ ?_ (fun h hA hB => ?_)
    · rw [write_self, here]
    · rw [write_other _ moves]
      exact source
    · rw [write_other _ hB]
      exact others h hA hB
  | deleted moves here source others =>
    obtain rfl : g = P.owner (k + 1) :=
      eq_target_of_serving (by rw [source.1]; exact Hold.noConfusion) others hs
    refine .deleted moves ?_ ?_ (fun h hA hB => ?_)
    · rw [write_self, here]
    · rw [write_other _ moves]
      exact source
    · rw [write_other _ hB]
      exact others h hA hB

theorem Installed.write (h : Installed P j recs) (g : G) (d : D) :
    Installed P j (write recs g d) := by
  unfold Installed
  rw [write_num]
  exact h

theorem Deleted.write (h : Deleted P j empty recs) {g : G} (hs : (recs g).state = .serving)
    (d : D) : Deleted P j empty (write recs g d) := by
  rcases h with hlt | heq
  · left
    rw [write_num]
    exact hlt
  · right
    rw [write_other _ ?_]
    · exact heq
    · rintro rfl
      rw [heq] at hs
      cases hs

theorem Ready.write {d' : D} (h : Ready P j d' recs) {g : G} (hs : (recs g).state = .serving)
    (d : D) : Ready P j d' (write recs g d) := by
  rcases h with hi | heq
  · exact .inl (hi.write g d)
  · right
    rw [write_other _ ?_]
    · exact heq
    · rintro rfl
      rw [heq] at hs
      cases hs

theorem write_keeps {g : G} (hs : (recs g).state = .serving) (d : D) :
    Keeps P k empty recs (write recs g d) where
  installed _ hi := hi.write g d
  deleted _ hd := hd.write hs d
  ready _ _ _ _ hr := hr.write hs d

theorem Settled.write (h : Settled P k empty d recs) {g : G} (hs : (recs g).state = .serving)
    (d' : D) : Settled P k empty d' (write recs g d') := by
  refine ⟨h.placed.write hs d', fun j hj hm => ?_⟩
  obtain ⟨hi, hd⟩ := h.past j hj hm
  exact ⟨hi.write g d', hd.write hs d'⟩

end Writes

section Changes

variable {P : Plan G} {k : ℕ} {empty d : D} {recs : G → Rec D}

theorem settled_start (h0 : 0 < P.num 1) (here : recs (P.owner 0) = ⟨d, .serving, 0⟩)
    (others : ∀ g, g ≠ P.owner 0 → recs g = ⟨empty, .notOwned, 0⟩) :
    Settled P 0 empty d recs := by
  refine ⟨.resting ?_ (fun g => ?_) (fun g hg => ?_), fun j hj => absurd hj (Nat.not_lt_zero j)⟩
  · rw [here]
    exact ⟨rfl, rfl⟩
  · by_cases hg : g = P.owner 0
    · rw [hg, here]
      exact h0
    · rw [others g hg]
      exact h0
  · rw [others g hg]

/-- A change that is over makes way for the next one. -/
theorem Settled.publish (h : Settled P k empty d recs)
    (hdone : P.Moves k → Installed P k recs ∧ Deleted P k empty recs) :
    Settled P (k + 1) empty d recs := by
  have hnext := P.increasing (k + 1)
  refine ⟨?_, fun j hj hm => ?_⟩
  · cases h.placed with
    | resting here low others =>
      have hsame : P.owner (k + 1) = P.owner k := by
        by_contra hne
        have hlow := low (P.owner (k + 1))
        exact absurd (hdone (Ne.symm hne)).1 (not_le.mpr hlow)
      refine .resting ?_ (fun g => lt_trans (low g) hnext) (fun g hg => others g ?_)
      · rw [hsame]
        exact here
      · rw [← hsame]
        exact hg
    | frozen moves here others =>
      rcases (hdone moves).2 with hlt | heq
      · rw [here] at hlt
        exact absurd hlt (lt_irrefl _)
      · rw [here] at heq
        cases heq
    | installed moves here source others =>
      rcases (hdone moves).2 with hlt | heq
      · rw [source.2] at hlt
        exact absurd hlt (lt_irrefl _)
      · rw [heq] at source
        cases source.1
    | deleted moves here source others =>
      refine .resting ?_ (fun g => ?_) (fun g hg => ?_)
      · rw [here]
        exact ⟨rfl, rfl⟩
      · by_cases hB : g = P.owner (k + 1)
        · rw [hB, here]
          exact hnext
        · by_cases hA : g = P.owner k
          · rw [hA, source.2]
            exact hnext
          · exact lt_trans (others g hA hB).2 hnext
      · by_cases hA : g = P.owner k
        · rw [hA]
          exact source.1
        · exact (others g hA hg).1
  · rcases Nat.lt_or_eq_of_le (Nat.le_of_lt_succ hj) with hlt | rfl
    · exact h.past j hlt hm
    · exact hdone hm

theorem Placed.frozen_content (h : Placed P k d recs) (hs : ∀ g, (recs g).state ≠ .serving) :
    ∃ g, (recs g).state = .frozen ∧ (recs g).data = d ∧
      ∀ g', (recs g').state = .frozen → g' = g := by
  cases h with
  | resting here low others => exact absurd here.2 (hs _)
  | frozen moves here others =>
    refine ⟨P.owner k, by rw [here], by rw [here], fun g' hf => ?_⟩
    by_contra hne
    rw [(others g' hne).1] at hf
    cases hf
  | installed moves here source others => exact absurd (congrArg Rec.state here) (hs _)
  | deleted moves here source others => exact absurd (congrArg Rec.state here) (hs _)

end Changes

end DistributedLabs.Handoff
