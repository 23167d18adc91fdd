import Mathlib.Data.List.Basic
import Mathlib.Data.List.Nodup
import Mathlib.Data.List.Pairwise

set_option autoImplicit false

/-!
# Linearizable histories

A history is the list of calls and returns that the clients of an object see, in the
order of time. It is linearizable when its calls, each at one point between its call and
its return, make a legal sequential execution. A call that has not returned may have
taken its point or not.
-/
namespace DistributedLabs.Linearizability

inductive Event (I Op Res : Type) where
  | invoke (c : I) (op : Op)
  | ret (c : I) (res : Res)
deriving DecidableEq

structure Spec (σ Op Res : Type) where
  init : σ
  step : σ → Op → Res → σ → Prop

structure Done (I Op Res : Type) where
  id : I
  op : Op
  res : Res

variable {σ I Op Res : Type}

inductive Spec.Legal (spec : Spec σ Op Res) : σ → List (Done I Op Res) → σ → Prop where
  | nil (s : σ) : Legal spec s [] s
  | cons {s u v : σ} {x : Done I Op Res} {xs : List (Done I Op Res)}
      (h : spec.step s x.op x.res u) (rest : Legal spec u xs v) : Legal spec s (x :: xs) v

theorem Spec.Legal.step_of_mem {spec : Spec σ Op Res} {s u : σ} {L : List (Done I Op Res)}
    (h : spec.Legal s L u) {x : Done I Op Res} (hx : x ∈ L) : ∃ v v', spec.step v x.op x.res v' := by
  induction h with
  | nil => cases hx
  | cons hstep _ ih =>
    rcases List.mem_cons.mp hx with rfl | hx
    · exact ⟨_, _, hstep⟩
    · exact ih hx

def Before (H : List (Event I Op Res)) (c d : I) : Prop :=
  ∃ r op, [Event.ret c r, Event.invoke d op].Sublist H

/-- `L` is a sequential execution that explains the history. -/
structure Linearizes (spec : Spec σ Op Res) (H : List (Event I Op Res))
    (L : List (Done I Op Res)) : Prop where
  nodup : (L.map Done.id).Nodup
  invoked : ∀ x ∈ L, Event.invoke x.id x.op ∈ H
  complete : ∀ c r, Event.ret c r ∈ H → ∃ op, ⟨c, op, r⟩ ∈ L
  order : L.Pairwise fun x y => ¬ Before H y.id x.id
  legal : ∃ s, spec.Legal spec.init L s

def Linearizable (spec : Spec σ Op Res) (H : List (Event I Op Res)) : Prop :=
  ∃ L, Linearizes spec H L

/-- The point at which a call acts on the object; its result may be decided later. -/
structure Point (σ I Op : Type) where
  id : I
  op : Op
  pre : σ
  post : σ

def Path : σ → List (Point σ I Op) → σ → Prop
  | s, [], u => s = u
  | s, x :: xs, u => x.pre = s ∧ Path x.post xs u

structure Explains (spec : Spec σ Op Res) (H : List (Event I Op Res)) (P : List (Point σ I Op))
    (s : σ) : Prop where
  nodup : (P.map Point.id).Nodup
  invoked : ∀ x ∈ P, Event.invoke x.id x.op ∈ H
  returned : ∀ c r, Event.ret c r ∈ H → ∃ x ∈ P, x.id = c ∧ spec.step x.pre x.op r x.post
  once : ∀ c r r', Event.ret c r ∈ H → Event.ret c r' ∈ H → r = r'
  possible : ∀ x ∈ P, ∃ r, spec.step x.pre x.op r x.post
  order : P.Pairwise fun x y => ¬ Before H y.id x.id
  path : Path spec.init P s

section path
variable {s u v : σ} {P Q : List (Point σ I Op)}

theorem Path.append (h : Path s P u) (h' : Path u Q v) : Path s (P ++ Q) v := by
  induction P generalizing s with
  | nil =>
    cases h
    exact h'
  | cons x xs ih => exact ⟨h.1, ih h.2⟩

theorem Path.of_append (h : Path s (P ++ Q) v) : ∃ u, Path s P u ∧ Path u Q v := by
  induction P generalizing s with
  | nil => exact ⟨s, rfl, h⟩
  | cons x xs ih =>
    obtain ⟨u, hu, hv⟩ := ih h.2
    exact ⟨u, ⟨h.1, hu⟩, hv⟩

end path

section events
variable {H : List (Event I Op Res)} {c d : I}

theorem sublist_snoc {α : Type} {a b e : α} {l : List α} (h : [a, b].Sublist (l ++ [e])) :
    [a, b].Sublist l ∨ (a ∈ l ∧ b = e) := by
  rw [List.sublist_append_iff] at h
  obtain ⟨p, q, hpq, hp, hq⟩ := h
  rcases List.sublist_singleton.mp hq with rfl | rfl
  · left
    rw [List.append_nil] at hpq
    rwa [hpq]
  · right
    have hab : p = [a] ∧ b = e := by
      cases p with
      | nil => simp at hpq
      | cons x p =>
        cases p with
        | nil =>
          simp only [List.cons_append, List.nil_append, List.cons.injEq, and_true] at hpq
          exact ⟨by rw [hpq.1], hpq.2⟩
        | cons y p => simp at hpq
    exact ⟨hp.subset (by simp [hab.1]), hab.2⟩

theorem Before.ret_mem (h : Before H c d) : ∃ r, Event.ret c r ∈ H := by
  obtain ⟨r, op, hs⟩ := h
  exact ⟨r, hs.subset (by simp)⟩

theorem Before.of_invoke {e : I} {op : Op} (h : Before (H ++ [.invoke e op]) c d) :
    Before H c d ∨ d = e := by
  obtain ⟨r, op', hs⟩ := h
  rcases sublist_snoc hs with hs | ⟨_, heq⟩
  · exact .inl ⟨r, op', hs⟩
  · cases heq
    exact .inr rfl

theorem Before.of_ret {e : I} {res : Res} (h : Before (H ++ [.ret e res]) c d) : Before H c d := by
  obtain ⟨r, op', hs⟩ := h
  rcases sublist_snoc hs with hs | ⟨_, heq⟩
  · exact ⟨r, op', hs⟩
  · cases heq

end events

section rules
variable {spec : Spec σ Op Res} {H : List (Event I Op Res)} {P Q : List (Point σ I Op)} {s u : σ}
  {c : I} {op : Op}

theorem Explains.start : Explains spec ([] : List (Event I Op Res)) [] spec.init where
  nodup := List.nodup_nil
  invoked := nofun
  returned := nofun
  once := nofun
  possible := nofun
  order := List.Pairwise.nil
  path := rfl

/-- A new call: what returned before it stays before it, for it has no point yet. -/
theorem Explains.invoke (h : Explains spec H P s) (fresh : ∀ op', Event.invoke c op' ∉ H) :
    Explains spec (H ++ [.invoke c op]) P s where
  nodup := h.nodup
  invoked x hx := List.mem_append_left _ (h.invoked x hx)
  returned d r hr := by
    simp only [List.mem_append, List.mem_singleton, reduceCtorEq, or_false] at hr
    exact h.returned d r hr
  once d r r' hr hr' := by
    simp only [List.mem_append, List.mem_singleton, reduceCtorEq, or_false] at hr hr'
    exact h.once d r r' hr hr'
  possible := h.possible
  order := by
    refine h.order.imp_of_mem fun {x y} hx _ hxy hb => ?_
    rcases hb.of_invoke with hb | rfl
    · exact hxy hb
    · exact fresh _ (h.invoked x hx)
  path := h.path

theorem Explains.point (h : Explains spec H P s) (inv : Event.invoke c op ∈ H)
    (new : ∀ x ∈ P, x.id ≠ c) (running : ∀ r, Event.ret c r ∉ H) (act : ∃ r, spec.step s op r u) :
    Explains spec H (P ++ [⟨c, op, s, u⟩]) u where
  nodup := by
    rw [List.map_append, List.nodup_append]
    refine ⟨h.nodup, List.nodup_singleton _, ?_⟩
    intro a ha b hb
    obtain ⟨x, hx, rfl⟩ := List.mem_map.mp ha
    rw [List.map_singleton, List.mem_singleton] at hb
    rw [hb]
    exact new x hx
  invoked x hx := by
    rcases List.mem_append.mp hx with hx | hx
    · exact h.invoked x hx
    · rw [List.mem_singleton.mp hx]
      exact inv
  returned d r hr := by
    obtain ⟨x, hx, hd⟩ := h.returned d r hr
    exact ⟨x, List.mem_append_left _ hx, hd⟩
  once := h.once
  possible x hx := by
    rcases List.mem_append.mp hx with hx | hx
    · exact h.possible x hx
    · rw [List.mem_singleton.mp hx]
      exact act
  order := by
    rw [List.pairwise_append]
    refine ⟨h.order, List.pairwise_singleton _ _, ?_⟩
    intro x _ y hy hb
    rw [List.mem_singleton.mp hy] at hb
    obtain ⟨r, hr⟩ := hb.ret_mem
    exact running r hr
  path := h.path.append ⟨rfl, rfl⟩

/-- A call in progress that has changed nothing gives up its point, to take one later. -/
theorem Explains.retract {x : Point σ I Op} (h : Explains spec H (P ++ x :: Q) s)
    (same : x.pre = x.post) (running : ∀ r, Event.ret x.id r ∉ H) : Explains spec H (P ++ Q) s := by
  have sub : (P ++ Q).Sublist (P ++ x :: Q) := (List.sublist_cons_self x Q).append_left P
  refine ⟨h.nodup.sublist (sub.map _), fun y hy => h.invoked y (sub.subset hy), ?_, h.once,
    fun y hy => h.possible y (sub.subset hy), h.order.sublist sub, ?_⟩
  · intro d r hr
    obtain ⟨y, hy, hd, hstep⟩ := h.returned d r hr
    refine ⟨y, ?_, hd, hstep⟩
    rcases List.mem_append.mp hy with hy | hy
    · exact List.mem_append_left _ hy
    · rcases List.mem_cons.mp hy with rfl | hy
      · rw [← hd] at hr
        exact absurd hr (running r)
      · exact List.mem_append_right _ hy
  · obtain ⟨v, hP, hpre, hQ⟩ := Path.of_append h.path
    rw [← same, hpre] at hQ
    exact hP.append hQ

/-- A call returns what it may return at its point. -/
theorem Explains.ret {x : Point σ I Op} {r : Res} (h : Explains spec H P s) (hx : x ∈ P)
    (running : ∀ r, Event.ret x.id r ∉ H) (act : spec.step x.pre x.op r x.post) :
    Explains spec (H ++ [.ret x.id r]) P s where
  nodup := h.nodup
  invoked y hy := List.mem_append_left _ (h.invoked y hy)
  returned d r' hr := by
    rcases List.mem_append.mp hr with hr | hr
    · exact h.returned d r' hr
    · cases List.mem_singleton.mp hr
      exact ⟨x, hx, rfl, act⟩
  once d r r' hr hr' := by
    rcases List.mem_append.mp hr with hr | hr
    · rcases List.mem_append.mp hr' with hr' | hr'
      · exact h.once d r r' hr hr'
      · cases List.mem_singleton.mp hr'
        exact absurd hr (running _)
    · cases List.mem_singleton.mp hr
      rcases List.mem_append.mp hr' with hr' | hr'
      · exact absurd hr' (running _)
      · cases List.mem_singleton.mp hr'
        rfl
  possible := h.possible
  order := h.order.imp fun hxy hb => hxy hb.of_ret
  path := h.path

end rules

section conclusion
variable {spec : Spec σ Op Res} {H : List (Event I Op Res)} {P : List (Point σ I Op)} {s : σ}

theorem Path.legal {res : Point σ I Op → Res} {s u : σ} (h : Path s P u)
    (act : ∀ x ∈ P, spec.step x.pre x.op (res x) x.post) :
    spec.Legal s (P.map fun x => ⟨x.id, x.op, res x⟩) u := by
  induction P generalizing s with
  | nil =>
    cases h
    exact .nil _
  | cons x xs ih =>
    have hx := act x List.mem_cons_self
    rw [h.1] at hx
    exact .cons hx (ih h.2 fun y hy => act y (List.mem_cons_of_mem _ hy))

theorem Explains.linearizable [Nonempty Res] (h : Explains spec H P s) : Linearizable spec H := by
  -- a call that has returned gets its own result, any other one that its point allows
  have result : ∀ x ∈ P, ∃ r, spec.step x.pre x.op r x.post ∧
      ∀ r', Event.ret x.id r' ∈ H → r' = r := by
    intro x hx
    by_cases hret : ∃ r, Event.ret x.id r ∈ H
    · obtain ⟨r, hr⟩ := hret
      obtain ⟨y, hy, hid, hstep⟩ := h.returned _ r hr
      rw [List.inj_on_of_nodup_map h.nodup hy hx hid] at hstep
      exact ⟨r, hstep, fun r' hr' => h.once _ _ _ hr' hr⟩
    · obtain ⟨r, hr⟩ := h.possible x hx
      exact ⟨r, hr, fun r' hr' => absurd ⟨r', hr'⟩ hret⟩
  choose! res hres using result
  refine ⟨P.map fun x => ⟨x.id, x.op, res x⟩, ?_, ?_, ?_, ?_, s, ?_⟩
  · rw [List.map_map]
    exact h.nodup
  · intro y hy
    obtain ⟨x, hx, rfl⟩ := List.mem_map.mp hy
    exact h.invoked x hx
  · intro c r hr
    obtain ⟨x, hx, rfl, _⟩ := h.returned c r hr
    refine ⟨x.op, List.mem_map.mpr ⟨x, hx, ?_⟩⟩
    rw [(hres x hx).2 r hr]
  · rw [List.pairwise_map]
    exact h.order
  · exact h.path.legal fun x hx => (hres x hx).1

end conclusion

section once
variable {H : List (Event I Op Res)} {c : I} {op : Op} {r : Res}

def invokes (H : List (Event I Op Res)) : List (I × Op) :=
  H.filterMap fun e =>
    match e with
    | .invoke c op => some (c, op)
    | .ret _ _ => none

def returns (H : List (Event I Op Res)) : List (I × Res) :=
  H.filterMap fun e =>
    match e with
    | .invoke _ _ => none
    | .ret c r => some (c, r)

theorem mem_invokes : (c, op) ∈ invokes H ↔ Event.invoke c op ∈ H := by
  simp only [invokes, List.mem_filterMap]
  constructor
  · rintro ⟨e, he, heq⟩
    cases e <;> cases heq
    exact he
  · exact fun h => ⟨_, h, rfl⟩

theorem mem_returns : (c, r) ∈ returns H ↔ Event.ret c r ∈ H := by
  simp only [returns, List.mem_filterMap]
  constructor
  · rintro ⟨e, he, heq⟩
    cases e <;> cases heq
    exact he
  · exact fun h => ⟨_, h, rfl⟩

structure Once (H : List (Event I Op Res)) : Prop where
  invoked : ((invokes H).map Prod.fst).Nodup
  returned : ((returns H).map Prod.fst).Nodup

theorem Once.invoke (h : Once H) (fresh : ∀ op', Event.invoke c op' ∉ H) :
    Once (H ++ [.invoke c op]) where
  invoked := by
    have hnew : c ∉ (invokes H).map Prod.fst := by
      rintro hmem
      obtain ⟨x, hx, rfl⟩ := List.mem_map.mp hmem
      exact fresh _ (mem_invokes.mp hx)
    simpa [invokes] using List.Nodup.concat hnew h.invoked
  returned := by simpa [returns] using h.returned

theorem Once.ret (h : Once H) (running : ∀ r', Event.ret c r' ∉ H) : Once (H ++ [.ret c r]) where
  invoked := by simpa [invokes] using h.invoked
  returned := by
    have hnew : c ∉ (returns H).map Prod.fst := by
      rintro hmem
      obtain ⟨x, hx, rfl⟩ := List.mem_map.mp hmem
      exact running _ (mem_returns.mp hx)
    simpa [returns] using List.Nodup.concat hnew h.returned

end once
end DistributedLabs.Linearizability
