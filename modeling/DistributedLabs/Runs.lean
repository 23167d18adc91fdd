import Mathlib.Data.List.Basic
import Mathlib.Logic.Relation

set_option autoImplicit false

/-!
# Labelled transition systems, their runs and history variables

A run keeps every transition it took, so that statements about two moments of
one execution need no clock. History variables are recorded beside the state by
a function of the transition; they never block one.
-/
namespace DistributedLabs.Runs

structure Machine (σ ℓ : Type) where
  init : σ → Prop
  step : σ → ℓ → σ → Prop

structure Transition (σ ℓ : Type) where
  pre : σ
  label : ℓ
  post : σ

inductive Run {σ ℓ : Type} (M : Machine σ ℓ) : List (Transition σ ℓ) → σ → Prop where
  | start {s : σ} (h : M.init s) : Run M [] s
  -- the newest transition comes first
  | next {tr : List (Transition σ ℓ)} {s u : σ} {l : ℓ} (run : Run M tr s)
      (h : M.step s l u) : Run M (⟨s, l, u⟩ :: tr) u

inductive Reaches {σ ℓ : Type} (M : Machine σ ℓ) : σ → σ → Prop where
  | refl (s : σ) : Reaches M s s
  | next {s u v : σ} {l : ℓ} (head : Reaches M s u) (h : M.step u l v) : Reaches M s v

variable {σ ℓ : Type} {M : Machine σ ℓ}

theorem Reaches.trans {s u v : σ} (h : Reaches M s u) (h' : Reaches M u v) : Reaches M s v := by
  induction h' with
  | refl => exact h
  | next _ hs ih => exact .next ih hs

theorem Run.invariant {I : σ → Prop} (hi : ∀ s, M.init s → I s)
    (hs : ∀ s l u, I s → M.step s l u → I u) {tr : List (Transition σ ℓ)} {s : σ}
    (run : Run M tr s) : I s := by
  induction run with
  | start h => exact hi _ h
  | next _ h ih => exact hs _ _ _ ih h

/-- The rule for properties of the whole past: what one step adds to it is judged
    in a reachable state. -/
theorem Run.history {I : List (Transition σ ℓ) → σ → Prop} (hi : ∀ s, M.init s → I [] s)
    (hs : ∀ tr s l u, Run M tr s → I tr s → M.step s l u → I (⟨s, l, u⟩ :: tr) u)
    {tr : List (Transition σ ℓ)} {s : σ} (run : Run M tr s) : I tr s := by
  induction run with
  | start h => exact hi _ h
  | next run h ih => exact hs _ _ _ _ run ih h

/-- Every recorded transition was taken from a reachable state, and the run went on
    from its target. -/
theorem Run.visited {tr : List (Transition σ ℓ)} {s : σ} (run : Run M tr s)
    {t : Transition σ ℓ} (ht : t ∈ tr) :
    (∃ past, Run M past t.pre) ∧ M.step t.pre t.label t.post ∧ Reaches M t.post s := by
  induction run with
  | start _ => cases ht
  | next run h ih =>
    rcases List.mem_cons.mp ht with rfl | ht
    · exact ⟨⟨_, run⟩, h, .refl _⟩
    · obtain ⟨past, step, rest⟩ := ih ht
      exact ⟨past, step, .next rest h⟩

theorem Run.extend {tr : List (Transition σ ℓ)} {s u : σ} (run : Run M tr s) (h : Reaches M s u) :
    ∃ tr', Run M tr' u := by
  induction h with
  | refl => exact ⟨tr, run⟩
  | next _ h ih =>
    obtain ⟨tr', run'⟩ := ih
    exact ⟨_, .next run' h⟩

def Visits (tr : List (Transition σ ℓ)) (s x : σ) : Prop := x = s ∨ ∃ t ∈ tr, t.pre = x

theorem Run.of_visits {tr : List (Transition σ ℓ)} {s x : σ} (run : Run M tr s)
    (hx : Visits tr s x) : (∃ past, Run M past x) ∧ Reaches M x s := by
  rcases hx with rfl | ⟨t, ht, rfl⟩
  · exact ⟨⟨tr, run⟩, .refl _⟩
  · obtain ⟨past, step, rest⟩ := run.visited ht
    refine ⟨past, Reaches.trans ?_ rest⟩
    exact .next (.refl _) step

theorem Run.past {tr : List (Transition σ ℓ)} {s x : σ} (run : Run M tr s)
    (hx : Visits tr s x) : ∃ past rest, tr = rest ++ past ∧ Run M past x := by
  induction run with
  | start h =>
    rcases hx with rfl | ⟨t, ht, -⟩
    · exact ⟨[], [], rfl, .start h⟩
    · cases ht
  | @next tr s u l run h ih =>
    rcases hx with rfl | ⟨t, ht, hpre⟩
    · exact ⟨_, [], rfl, .next run h⟩
    · have hv : Visits tr s x := by
        rcases List.mem_cons.mp ht with rfl | ht
        · exact .inl hpre.symm
        · exact .inr ⟨t, ht, hpre⟩
      obtain ⟨past, rest, rfl, hrun⟩ := ih hv
      exact ⟨past, ⟨s, l, u⟩ :: rest, rfl, hrun⟩

theorem Run.before {before after : List (Transition σ ℓ)} {t : Transition σ ℓ} {s : σ}
    (run : Run M (after ++ t :: before) s) : Run M before t.pre := by
  induction after generalizing s with
  | nil =>
    cases run with
    | next run _ => exact run
  | cons x after ih =>
    cases run with
    | next run _ => exact ih run

theorem Run.visits_post {tr : List (Transition σ ℓ)} {s : σ} (run : Run M tr s)
    {t : Transition σ ℓ} (ht : t ∈ tr) : Visits tr s t.post := by
  induction run with
  | start _ => cases ht
  | next run h ih =>
    rcases List.mem_cons.mp ht with rfl | ht
    · exact .inl rfl
    · right
      rcases ih ht with hs | ⟨u, hu, hpre⟩
      · exact ⟨_, List.mem_cons_self, hs.symm⟩
      · exact ⟨u, List.mem_cons_of_mem _ hu, hpre⟩

/-- A relation that every step respects holds along every stretch of a run. -/
theorem Reaches.respects {R : σ → σ → Prop} (refl : ∀ s, R s s)
    (trans : ∀ s u v, R s u → R u v → R s v) {I : σ → Prop}
    (keep : ∀ s l u, I s → M.step s l u → I u) (step : ∀ s l u, I s → M.step s l u → R s u)
    {s u : σ} (h : Reaches M s u) (hs : I s) : R s u ∧ I u := by
  induction h with
  | refl => exact ⟨refl _, hs⟩
  | next _ h ih =>
    obtain ⟨rel, inv⟩ := ih
    exact ⟨trans _ _ _ rel (step _ _ _ inv h), keep _ _ _ inv h⟩

def replay (f : σ → ℓ → Option σ) (s : σ) (tr : List (Transition σ ℓ)) :
    List ℓ → Option (List (Transition σ ℓ) × σ)
  | [] => some (tr, s)
  | l :: ls => (f s l).bind fun u => replay f u (⟨s, l, u⟩ :: tr) ls

theorem Run.replay {f : σ → ℓ → Option σ} (hf : ∀ s l u, f s l = some u → M.step s l u)
    (ls : List ℓ) {tr tr' : List (Transition σ ℓ)} {s s' : σ} (run : Run M tr s)
    (h : replay f s tr ls = some (tr', s')) : Run M tr' s' := by
  induction ls generalizing s tr with
  | nil =>
    cases h
    exact run
  | cons l ls ih =>
    obtain ⟨u, hu, h⟩ := Option.bind_eq_some_iff.mp h
    exact ih (.next run (hf _ _ _ hu)) h

def Machine.guarded (M : Machine σ ℓ) (ok : σ → ℓ → Prop) : Machine σ ℓ where
  init := M.init
  step s l u := M.step s l u ∧ ok s l

def Machine.withHistory {η : Type} (M : Machine σ ℓ) (origin : η)
    (record : η → σ → ℓ → σ → η) : Machine (σ × η) ℓ where
  init w := M.init w.1 ∧ w.2 = origin
  step w l v := M.step w.1 l v.1 ∧ v.2 = record w.2 w.1 l v.1

/-- History variables exclude no run: each run lifts to one that records. -/
theorem Run.lift {η : Type} (origin : η) (record : η → σ → ℓ → σ → η)
    {tr : List (Transition σ ℓ)} {s : σ} (run : Run M tr s) :
    ∃ lifted h, Run (M.withHistory origin record) lifted (s, h) ∧
      tr = lifted.map (fun t => ⟨t.pre.1, t.label, t.post.1⟩) := by
  induction run with
  | start h => exact ⟨[], origin, .start ⟨h, rfl⟩, rfl⟩
  | @next tr s u l run h ih =>
    obtain ⟨lifted, g, hr, rfl⟩ := ih
    have step : (M.withHistory origin record).step (s, g) l (u, record g s l u) := ⟨h, rfl⟩
    exact ⟨_, _, .next hr step, rfl⟩

/-- Forward simulation, where the relation may look at the past of the simulated machine. -/
theorem Run.simulate {τ ℓ' : Type} {N : Machine τ ℓ'} {R : List (Transition σ ℓ) → σ → τ → Prop}
    (init : ∀ s, M.init s → ∃ a, N.init a ∧ R [] s a)
    (step : ∀ tr s l u a, R tr s a → M.step s l u →
      ∃ b, (b = a ∨ ∃ l', N.step a l' b) ∧ R (⟨s, l, u⟩ :: tr) u b)
    {tr : List (Transition σ ℓ)} {s : σ} (run : Run M tr s) :
    ∃ tr' a, Run N tr' a ∧ R tr s a := by
  induction run with
  | start h =>
    obtain ⟨a, ha, hr⟩ := init _ h
    exact ⟨[], a, .start ha, hr⟩
  | next _ h ih =>
    obtain ⟨tr', a, hrun, hr⟩ := ih
    obtain ⟨b, rfl | ⟨l', hl⟩, hb⟩ := step _ _ _ _ _ hr h
    · exact ⟨tr', b, hrun, hb⟩
    · exact ⟨_, b, .next hrun hl, hb⟩

def iterate (f : σ → Option σ) : ℕ → σ → Option σ
  | 0, s => some s
  | k + 1, s => (f s).bind (iterate f k)

/-- A rank that falls with every step short of the goal leads to the goal. -/
theorem iterate_reaches {f : σ → Option σ} {I goal : σ → Prop} (rank : σ → ℕ)
    (hf : ∀ s, I s → goal s ∨ ∃ u, f s = some u ∧ I u ∧ rank u < rank s) {s : σ} (hs : I s) :
    ∃ k x, iterate f k s = some x ∧ I x ∧ goal x := by
  induction hr : rank s using Nat.strongRecOn generalizing s with
  | ind r ih =>
    rcases hf s hs with hgoal | ⟨u, hu, hi, hlt⟩
    · exact ⟨0, s, rfl, hs, hgoal⟩
    · obtain ⟨k, x, hx, rest⟩ := ih (rank u) (hr ▸ hlt) hi rfl
      exact ⟨k + 1, x, by rw [iterate, hu]; exact hx, rest⟩

end DistributedLabs.Runs
