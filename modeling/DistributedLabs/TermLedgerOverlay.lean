import DistributedLabs.TermLedger

set_option autoImplicit false

/-! Laying a run of entries over a log, entry by entry. -/
namespace DistributedLabs.TermLedger
open Classical

variable {V E : Type} {rank : E → ℕ}

/-- Entries with the term already present stay; the first one that differs replaces the rest. -/
def overlay (rank : E → ℕ) : List E → List E → List E
  | l, [] => l
  | [], b :: m => b :: m
  | a :: l, b :: m => if rank a = rank b then a :: overlay rank l m else b :: m

theorem overlay_nil (l : List E) : overlay rank l [] = l := by
  cases l <;> rfl

theorem nil_overlay (m : List E) : overlay rank [] m = m := by
  cases m <;> rfl

theorem overlay_overlay (l m : List E) :
    overlay rank (overlay rank l m) m = overlay rank l m := by
  induction m generalizing l with
  | nil => rw [overlay_nil]
  | cons b m ih =>
    have hself : overlay rank (b :: m) (b :: m) = b :: m := by
      have h := ih []
      rw [nil_overlay] at h
      simp [overlay, h]
    cases l with
    | nil => rw [nil_overlay, hself]
    | cons a l =>
      by_cases hr : rank a = rank b
      · simp [overlay, hr, ih l]
      · simpa [overlay, hr] using hself

def Differ (rank : E → ℕ) (l m : List E) (k : ℕ) : Prop :=
  ∃ a b, l[k]? = some a ∧ m[k]? = some b ∧ rank a ≠ rank b

theorem differ_succ {a b : E} {l m : List E} {k : ℕ} :
    Differ rank (a :: l) (b :: m) (k + 1) ↔ Differ rank l m k := by
  simp [Differ]

theorem differ_zero {a b : E} {l m : List E} :
    Differ rank (a :: l) (b :: m) 0 ↔ rank a ≠ rank b := by
  simp [Differ]

theorem overlay_of_agree (l m : List E) (h : ∀ k, ¬ Differ rank l m k) :
    overlay rank l m = l ++ m.drop l.length := by
  induction m generalizing l with
  | nil => rw [overlay_nil, List.drop_nil, List.append_nil]
  | cons b m ih =>
    cases l with
    | nil => rw [nil_overlay, List.nil_append, List.length_nil, List.drop_zero]
    | cons a l =>
      have hr : rank a = rank b := by
        by_contra hne
        exact h 0 (differ_zero.mpr hne)
      have hrec := ih l (fun k hk => h (k + 1) (differ_succ.mpr hk))
      simp [overlay, hr, hrec]

theorem overlay_of_differ (l m : List E) (k : ℕ) (hk : Differ rank l m k)
    (h : ∀ j, j < k → ¬ Differ rank l m j) : overlay rank l m = l.take k ++ m.drop k := by
  induction m generalizing l k with
  | nil => simp [Differ] at hk
  | cons b m ih =>
    cases l with
    | nil => simp [Differ] at hk
    | cons a l =>
      cases k with
      | zero => simp [overlay, differ_zero.mp hk]
      | succ k =>
        have hr : rank a = rank b := by
          by_contra hne
          exact h 0 (Nat.succ_pos k) (differ_zero.mpr hne)
        have hrec := ih l k (differ_succ.mp hk)
          (fun j hj hd => h (j + 1) (Nat.succ_lt_succ hj) (differ_succ.mpr hd))
        simp [overlay, hr, hrec]

/-- Equal terms at a position mean equal logs up to it. -/
def Matching (rank : E → ℕ) (l m : List E) : Prop :=
  ∀ k a b, l[k]? = some a → m[k]? = some b → rank a = rank b → l.take (k + 1) = m.take (k + 1)

theorem Matching.tail {a b : E} {l m : List E} (h : Matching rank (a :: l) (b :: m)) :
    Matching rank l m := by
  intro k x y hx hy hr
  have ht := h (k + 1) x y (by simpa using hx) (by simpa using hy) hr
  simp only [List.take_succ_cons, List.cons.injEq] at ht
  exact ht.2

theorem overlay_eq_adopt (l m : List E) (h : Matching rank l m) : overlay rank l m = adopt l m := by
  induction m generalizing l with
  | nil => simp [overlay_nil, adopt]
  | cons b m ih =>
    cases l with
    | nil => simp [nil_overlay, adopt]
    | cons a l =>
      by_cases hr : rank a = rank b
      · have hab : a = b := by
          have ht := h 0 a b rfl rfl hr
          simpa using ht
        subst hab
        have hrec := ih l h.tail
        simp only [overlay, ↓reduceIte, hrec, adopt, List.cons_prefix_cons, true_and]
        split_ifs <;> rfl
      · have hab : a ≠ b := fun e => hr (congrArg rank e)
        have hn : ¬ (b :: m <+: a :: l) := by
          rw [List.cons_prefix_cons]
          rintro ⟨rfl, _⟩
          exact hab rfl
        simp [overlay, hr, adopt, hn]

/-- The overlay of what follows a common stretch. -/
theorem append_overlay {l m : List E} {k : ℕ} (h : Matching rank l m)
    (he : l.take k = m.take k) :
    l.take k ++ overlay rank (l.drop k) (m.drop k) = adopt l m := by
  have hd : Matching rank (l.drop k) (m.drop k) := by
    intro j a b ha hb hr
    rw [List.getElem?_drop] at ha hb
    have ht := congrArg (List.drop k) (h (k + j) a b ha hb hr)
    rw [List.drop_take, List.drop_take] at ht
    rwa [show k + j + 1 - k = j + 1 by omega] at ht
  rw [overlay_eq_adopt _ _ hd]
  have split : m <+: l ↔ m.drop k <+: l.drop k := by
    conv_lhs => rw [← List.take_append_drop k m, ← List.take_append_drop k l, he]
    exact List.prefix_append_right_inj _
  by_cases hp : m <+: l
  · rw [adopt, adopt, if_pos hp, if_pos (split.mp hp)]
    exact List.take_append_drop k l
  · rw [adopt, adopt, if_neg hp, if_neg (hp ∘ split.mpr), he]
    exact List.take_append_drop k m

end DistributedLabs.TermLedger
