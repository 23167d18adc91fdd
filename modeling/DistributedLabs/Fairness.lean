import DistributedLabs.Runs
import Mathlib.Data.Nat.Init

set_option autoImplicit false

/-!
# Endless executions and weak fairness

Liveness of a transition system: a set of steps that stays possible is taken at some
time, and a rank that these steps lower, and that no step raises, reaches its goal.
-/
namespace DistributedLabs.Fairness
open Runs

variable {σ ℓ : Type} {M : Machine σ ℓ}

/-- An endless execution. Where it has no label, nothing happens. -/
structure Behavior (M : Machine σ ℓ) where
  state : ℕ → σ
  label : ℕ → Option ℓ
  start : M.init (state 0)
  step : ∀ n, (∃ l, label n = some l ∧ M.step (state n) l (state (n + 1))) ∨
    label n = none ∧ state (n + 1) = state n

def Enabled (M : Machine σ ℓ) (own : ℓ → Prop) (s : σ) : Prop := ∃ l u, own l ∧ M.step s l u

def Behavior.Fair (b : Behavior M) (own : ℓ → Prop) : Prop :=
  ∀ n, (∀ m, n ≤ m → Enabled M own (b.state m)) → ∃ m, n ≤ m ∧ ∃ l, own l ∧ b.label m = some l

theorem Behavior.run (b : Behavior M) (n : ℕ) : ∃ tr, Run M tr (b.state n) := by
  induction n with
  | zero => exact ⟨[], .start b.start⟩
  | succ n ih =>
    obtain ⟨tr, run⟩ := ih
    rcases b.step n with ⟨l, -, h⟩ | ⟨-, h⟩
    · exact ⟨_, .next run h⟩
    · exact ⟨tr, h ▸ run⟩

theorem Behavior.respects (b : Behavior M) {R : σ → σ → Prop} (refl : ∀ s, R s s)
    (trans : ∀ s u v, R s u → R u v → R s v)
    (step : ∀ tr s l u, Run M tr s → M.step s l u → R s u) {n m : ℕ} (h : n ≤ m) :
    R (b.state n) (b.state m) := by
  induction m, h using Nat.le_induction with
  | base => exact refl _
  | succ m _ ih =>
    obtain ⟨tr, run⟩ := b.run m
    rcases b.step m with ⟨l, -, h⟩ | ⟨-, h⟩
    · exact trans _ _ _ ih (step tr _ l _ run h)
    · exact h ▸ ih

/-- From some time on, a rank that no step raises and that the fair steps lower leads to the
    goal, if these steps become possible for good wherever the rank stands still. -/
theorem Behavior.eventually (b : Behavior M) {own : ℓ → Prop} (fair : b.Fair own)
    {goal : σ → Prop} (rank : σ → ℕ) (first : ℕ)
    (mono : ∀ n, first ≤ n → rank (b.state (n + 1)) ≤ rank (b.state n))
    (lower : ∀ n l, first ≤ n → b.label n = some l → own l →
      rank (b.state (n + 1)) < rank (b.state n))
    (enabled : ∀ n, first ≤ n →
      (∀ m, n ≤ m → ¬ goal (b.state m) ∧ rank (b.state m) = rank (b.state n)) →
      ∃ m, n ≤ m ∧ ∀ m', m ≤ m' → Enabled M own (b.state m')) {n : ℕ} (hn : first ≤ n) :
    ∃ m, n ≤ m ∧ goal (b.state m) := by
  induction hr : rank (b.state n) using Nat.strongRecOn generalizing n with
  | ind r ih =>
    have later : ∀ m, n ≤ m → rank (b.state m) ≤ rank (b.state n) := fun m hm => by
      induction m, hm using Nat.le_induction with
      | base => exact Nat.le_refl _
      | succ m hm ih => exact Nat.le_trans (mono m (by omega)) ih
    by_cases still : ∀ m, n ≤ m → ¬ goal (b.state m) ∧ rank (b.state m) = rank (b.state n)
    · -- the rank stands still, so the fair steps are taken, and then it does not
      obtain ⟨m, hm, hen⟩ := enabled n hn still
      obtain ⟨m', hm', l, hown, hl⟩ := fair m hen
      have hlt := lower m' l (by omega) hl hown
      have heq := (still m' (by omega)).2
      have heq' := (still (m' + 1) (by omega)).2
      omega
    · push Not at still
      obtain ⟨m, hm, hne⟩ := still
      by_cases hg : goal (b.state m)
      · exact ⟨m, hm, hg⟩
      · have hlt : rank (b.state m) < r := by
          have := later m hm
          have := hne hg
          omega
        obtain ⟨m', hm', hgoal⟩ := ih _ hlt (by omega) rfl
        exact ⟨m', by omega, hgoal⟩

section replay
variable {f : σ → ℓ → Option σ}

def follow (f : σ → ℓ → Option σ) (s : σ) : List ℓ → ℕ → σ
  | [], _ => s
  | _ :: _, 0 => s
  | l :: ls, n + 1 => follow f ((f s l).getD s) ls n

def followed (f : σ → ℓ → Option σ) (s : σ) : List ℓ → ℕ → Option ℓ
  | [], _ => none
  | l :: _, 0 => if (f s l).isSome then some l else none
  | l :: ls, n + 1 => followed f ((f s l).getD s) ls n

theorem follow_zero (s : σ) (ls : List ℓ) : follow f s ls 0 = s := by
  cases ls <;> rfl

def Behavior.replay (f : σ → ℓ → Option σ) (hf : ∀ s l u, f s l = some u → M.step s l u) (s : σ)
    (hs : M.init s) (ls : List ℓ) : Behavior M where
  state := follow f s ls
  label := followed f s ls
  start := by rwa [follow_zero]
  step n := by
    clear hs
    induction ls generalizing s n with
    | nil => exact .inr ⟨rfl, rfl⟩
    | cons l ls ih =>
      cases n with
      | succ n => exact ih _ n
      | zero =>
        cases hl : f s l with
        | none => exact .inr ⟨by simp [followed, hl], by simp [follow, hl, follow_zero]⟩
        | some u =>
          exact .inl ⟨l, by simp [followed, hl], by
            simpa [follow, hl, follow_zero] using hf s l u hl⟩

theorem follow_end (s : σ) (ls : List ℓ) {n : ℕ} (h : ls.length ≤ n) :
    follow f s ls n = follow f s ls ls.length := by
  induction ls generalizing s n with
  | nil => rfl
  | cons l ls ih =>
    cases n with
    | zero => simp at h
    | succ n => exact ih _ (by simpa using h)

end replay
end DistributedLabs.Fairness
