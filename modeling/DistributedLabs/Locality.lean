import Mathlib.Data.List.Perm.Basic
import Mathlib.Data.List.MinMax
import Mathlib.Logic.Function.Basic
import Mathlib.Tactic.Common

set_option autoImplicit false

/-!
# Linearizability is local

Operations take time: each has a call and a return. A set of them is legal for a
sequential object when some order of all of them that never puts an operation before one
that had returned when it was called is accepted by the object. When the state is made
of parts and each operation works on one part, it is enough that the operations of each
part are legal.
-/
namespace DistributedLabs.Locality

variable {σ α T K : Type}

def Accepts (step : σ → α → Option σ) : σ → List α → Prop
  | _, [] => True
  | s, a :: as => ∃ u, step s a = some u ∧ Accepts step u as

def InTime [LT T] (call ret : α → T) (L : List α) : Prop :=
  L.Pairwise fun a b => ¬ ret b < call a

def Legal [LT T] (call ret : α → T) (step : σ → α → Option σ) (init : σ) (ops : List α) : Prop :=
  ∃ L, L.Perm ops ∧ InTime call ret L ∧ Accepts step init L

theorem Accepts.step_of_mem {step : σ → α → Option σ} {s : σ} {L : List α} (h : Accepts step s L)
    {a : α} (ha : a ∈ L) : ∃ u v, step u a = some v := by
  induction L generalizing s with
  | nil => cases ha
  | cons b L ih =>
    obtain ⟨v, hv, hrest⟩ := h
    rcases List.mem_cons.mp ha with rfl | ha
    · exact ⟨s, v, hv⟩
    · exact ih hrest ha

section parts
variable [DecidableEq K]

/-- The object whose state has a part for each key. -/
def whole (key : α → K) (step : σ → α → Option σ) (s : K → σ) (a : α) : Option (K → σ) :=
  (step (s (key a)) a).map (Function.update s (key a))

def part (key : α → K) (k : K) (ops : List α) : List α := ops.filter fun a => decide (key a = k)

variable {key : α → K} {step : σ → α → Option σ}

theorem part_cons_self (a : α) (ops : List α) : part key (key a) (a :: ops) = a :: part key (key a) ops := by
  simp [part]

theorem part_cons_of_ne {k : K} {a : α} (h : key a ≠ k) (ops : List α) :
    part key k (a :: ops) = part key k ops := by
  simp [part, h]

theorem accepts_whole_iff (s : K → σ) (L : List α) :
    Accepts (whole key step) s L ↔ ∀ k, Accepts step (s k) (part key k L) := by
  induction L generalizing s with
  | nil => simp [Accepts, part]
  | cons a as ih =>
    constructor
    · rintro ⟨s', hstep, hrest⟩ k
      obtain ⟨u, hu, rfl⟩ := Option.map_eq_some_iff.mp hstep
      have hk := (ih _).mp hrest k
      by_cases h : key a = k
      · subst h
        rw [part_cons_self]
        rw [Function.update_self] at hk
        exact ⟨u, hu, hk⟩
      · rw [part_cons_of_ne h]
        rwa [Function.update_of_ne (Ne.symm h)] at hk
    · intro h
      have hself := h (key a)
      rw [part_cons_self] at hself
      obtain ⟨u, hu, hrest⟩ := hself
      refine ⟨_, Option.map_eq_some_iff.mpr ⟨u, hu, rfl⟩, (ih _).mpr ?_⟩
      intro k
      by_cases hk : key a = k
      · subst hk
        rwa [Function.update_self]
      · rw [Function.update_of_ne (Ne.symm hk)]
        have := h k
        rwa [part_cons_of_ne hk] at this

end parts

section merge
variable [DecidableEq K] [LinearOrder T] {call ret : α → T} {key : α → K}

/-- Some part starts with an operation that was called before anything had returned: the part
    of the operation that returned first. -/
theorem exists_head {ops : List α} (hne : ops ≠ []) (span : ∀ a ∈ ops, call a ≤ ret a)
    {parts : K → List α} (hperm : ∀ k, (parts k).Perm (part key k ops))
    (htime : ∀ k, InTime call ret (parts k)) :
    ∃ a as, parts (key a) = a :: as ∧ a ∈ ops ∧ ∀ b ∈ ops, ¬ ret b < call a := by
  obtain ⟨first, hfirst⟩ : ∃ x, ops.argmin ret = some x := by
    rw [← Option.isSome_iff_exists, Option.isSome_iff_ne_none, Ne, List.argmin_eq_none]
    exact hne
  have hmem := List.argmin_mem hfirst
  have hin : first ∈ parts (key first) := (hperm _).mem_iff.mpr (by simp [part, hmem])
  cases hparts : parts (key first) with
  | nil => simp [hparts] at hin
  | cons a as =>
    have ha : a ∈ part key (key first) ops := (hperm _).mem_iff.mp (by simp [hparts])
    obtain ⟨ha, hkey⟩ : a ∈ ops ∧ key a = key first := by simpa [part] using ha
    have hstart : call a ≤ ret first := by
      rw [hparts] at hin
      rcases List.mem_cons.mp hin with rfl | hrest
      · exact span _ hmem
      · have htimes := htime (key first)
        rw [hparts] at htimes
        exact not_lt.mp ((List.pairwise_cons.mp htimes).1 first hrest)
    refine ⟨a, as, by rw [hkey, hparts], ha, ?_⟩
    intro b hb
    exact not_lt.mpr (hstart.trans (List.le_of_mem_argmin hb hfirst))

theorem exists_merge (ops : List α) (span : ∀ a ∈ ops, call a ≤ ret a) (parts : K → List α)
    (hperm : ∀ k, (parts k).Perm (part key k ops)) (htime : ∀ k, InTime call ret (parts k)) :
    ∃ L, L.Perm ops ∧ InTime call ret L ∧ ∀ k, part key k L = parts k := by
  induction hn : ops.length generalizing ops parts with
  | zero =>
    obtain rfl := List.length_eq_zero_iff.mp hn
    exact ⟨[], .nil, .nil, fun k => (List.Perm.eq_nil (hperm k)).symm⟩
  | succ n ih =>
    have hne : ops ≠ [] := by
      rintro rfl
      simp at hn
    obtain ⟨a, as, hparts, ha, hfirst⟩ := exists_head hne span hperm htime
    obtain ⟨xs, ys, rfl⟩ := List.append_of_mem ha
    have hops : (xs ++ a :: ys).Perm (a :: (xs ++ ys)) := List.perm_middle
    -- `a` goes first; it leaves its part without its head and the others as they are
    have hrest : ∀ k, (Function.update parts (key a) as k).Perm (part key k (xs ++ ys)) ∧
        InTime call ret (Function.update parts (key a) as k) := by
      intro k
      have hk : (parts k).Perm (part key k (a :: (xs ++ ys))) := (hperm k).trans (hops.filter _)
      have ht := htime k
      by_cases h : key a = k
      · subst h
        rw [part_cons_self, hparts] at hk
        rw [hparts] at ht
        rw [Function.update_self]
        exact ⟨hk.cons_inv, (List.pairwise_cons.mp ht).2⟩
      · rw [Function.update_of_ne (Ne.symm h)]
        rw [part_cons_of_ne h] at hk
        exact ⟨hk, ht⟩
    obtain ⟨L, hL, hLtime, hLparts⟩ := ih (xs ++ ys)
      (fun b hb => span b (hops.mem_iff.mpr (List.mem_cons_of_mem _ hb))) _
      (fun k => (hrest k).1) (fun k => (hrest k).2) (by simp at hn ⊢; omega)
    refine ⟨a :: L, (hL.cons a).trans hops.symm, List.pairwise_cons.mpr ⟨?_, hLtime⟩, ?_⟩
    · intro b hb
      exact hfirst b (hops.mem_iff.mpr (List.mem_cons_of_mem _ (hL.mem_iff.mp hb)))
    · intro k
      by_cases h : key a = k
      · subst h
        rw [part_cons_self, hLparts, Function.update_self, hparts]
      · rw [part_cons_of_ne h, hLparts, Function.update_of_ne (Ne.symm h)]

variable {step : σ → α → Option σ} {init : σ}

/-- Locality: operations on an object made of parts are legal when those on each part are. -/
theorem legal_whole_iff (ops : List α) (span : ∀ a ∈ ops, call a ≤ ret a) :
    Legal call ret (whole key step) (fun _ => init) ops ↔
      ∀ k, Legal call ret step init (part key k ops) := by
  constructor
  · rintro ⟨L, hperm, htime, hacc⟩ k
    exact ⟨part key k L, hperm.filter _, htime.filter _, (accepts_whole_iff _ L).mp hacc k⟩
  · intro h
    choose parts hperm htime hacc using h
    obtain ⟨L, hL, hLtime, hLparts⟩ := exists_merge ops span parts hperm htime
    refine ⟨L, hL, hLtime, (accepts_whole_iff _ L).mpr ?_⟩
    intro k
    rw [hLparts]
    exact hacc k

end merge
end DistributedLabs.Locality
