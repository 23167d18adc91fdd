import DistributedLabs.Linearizability
import DistributedLabs.Runs
import Mathlib.Logic.Function.Basic

set_option autoImplicit false

/-!
# Calls that are executed again until they are answered

A client repeats its request until an answer arrives, so one call may be executed any
number of times. The client sees the answer to the last execution, and knows only whether
it had asked before. Such an object is linearizable if a call can change it at most once
and the client's result never denies a change that an earlier execution may have made.
-/
namespace DistributedLabs.Retries
open Linearizability Runs

/-- `changes op t` tells from the reply `t` whether the execution changed the state;
    `finish op resent t` is the client's result. -/
structure Service (σ Op Rep Res : Type) where
  init : σ
  apply : Op → σ → σ × Rep
  changes : Op → Rep → Bool
  finish : Op → Bool → Rep → Res

variable {σ I Op Rep Res : Type}

/-- After a change by `op` the state is `spent` for it, and it stays so. -/
structure Lawful (sv : Service σ Op Rep Res) (spec : Spec σ Op Res) (spent : Op → σ → Prop) :
    Prop where
  init : spec.init = sv.init
  now : ∀ op s resent, spec.step s op (sv.finish op resent (sv.apply op s).2) (sv.apply op s).1
  quiet : ∀ op s, sv.changes op (sv.apply op s).2 = false → (sv.apply op s).1 = s
  spends : ∀ op s, sv.changes op (sv.apply op s).2 = true → spent op (sv.apply op s).1
  keeps : ∀ op op' s, spent op s → spent op (sv.apply op' s).1
  idle : ∀ op s, spent op s → sv.changes op (sv.apply op s).2 = false
  later : ∀ op s u, sv.changes op (sv.apply op s).2 = true → spent op u →
    spec.step s op (sv.finish op true (sv.apply op u).2) (sv.apply op s).1

inductive Status (Op Rep Res : Type) where
  | idle
  -- `runs` are the replies of the executions, newest first
  | active (op : Op) (runs : List Rep)
  | returned (op : Op) (runs : List Rep) (res : Res)

structure World (σ I Op Rep Res : Type) where
  state : σ
  calls : I → Status Op Rep Res
  history : List (Event I Op Res)

inductive Label (I Op : Type) where
  | invoke (c : I) (op : Op)
  | run (c : I)
  | ret (c : I) (resent : Bool)

section machine
variable [DecidableEq I]

def exec (sv : Service σ Op Rep Res) (w : World σ I Op Rep Res) :
    Label I Op → Option (World σ I Op Rep Res)
  | .invoke c op =>
    match w.calls c with
    | .idle => some { w with
        calls := Function.update w.calls c (.active op [])
        history := w.history ++ [.invoke c op] }
    | _ => none
  | .run c =>
    match w.calls c with
    | .active op runs => some { w with
        state := (sv.apply op w.state).1
        calls := Function.update w.calls c (.active op ((sv.apply op w.state).2 :: runs)) }
    | _ => none
  | .ret c resent =>
    match w.calls c with
    | .active op (t :: older) =>
      if older.isEmpty || resent then some { w with
        calls := Function.update w.calls c (.returned op (t :: older) (sv.finish op resent t))
        history := w.history ++ [.ret c (sv.finish op resent t)] }
      else none
    | _ => none

def calls (I : Type) [DecidableEq I] (sv : Service σ Op Rep Res) :
    Machine (World σ I Op Rep Res) (Label I Op) where
  init w := w = ⟨sv.init, fun _ => .idle, []⟩
  step w l v := exec sv w l = some v

end machine

def effects (sv : Service σ Op Rep Res) (op : Op) (runs : List Rep) : ℕ :=
  runs.countP (sv.changes op)

section invariant
variable (sv : Service σ Op Rep Res) (spent : Op → σ → Prop)

/-- The point `x` stands for the executions of a call: for the only one that changed the
    state, or for the newest if none did. -/
structure Stands (s : σ) (op : Op) (t : Rep) (older : List Rep) (x : Point σ I Op) : Prop where
  op_eq : x.op = op
  post : x.post = (sv.apply op x.pre).1
  kind : (effects sv op (t :: older) = 0 ∧ t = (sv.apply op x.pre).2) ∨
    (effects sv op (t :: older) = 1 ∧ sv.changes op (sv.apply op x.pre).2 = true ∧ spent op s ∧
      (t = (sv.apply op x.pre).2 ∨
        (older ≠ [] ∧ sv.changes op t = false ∧ ∃ u, spent op u ∧ t = (sv.apply op u).2)))

structure Outcome (op : Op) (runs : List Rep) (res : Res) : Prop where
  atMostOnce : effects sv op runs ≤ 1
  seen : ∃ t older resent, runs = t :: older ∧ (older = [] ∨ resent = true) ∧
    res = sv.finish op resent t ∧ (∃ s, t = (sv.apply op s).2) ∧
    (effects sv op older = 0 ∨ (sv.changes op t = false ∧ ∃ u, spent op u ∧ t = (sv.apply op u).2))

def CallInv (H : List (Event I Op Res)) (P : List (Point σ I Op)) (s : σ) (c : I) :
    Status Op Rep Res → Prop
  | .idle => (∀ op, Event.invoke c op ∉ H) ∧ (∀ x ∈ P, x.id ≠ c) ∧ ∀ r, Event.ret c r ∉ H
  | .active op [] => Event.invoke c op ∈ H ∧ (∀ x ∈ P, x.id ≠ c) ∧ ∀ r, Event.ret c r ∉ H
  | .active op (t :: older) => Event.invoke c op ∈ H ∧
    (∃ x ∈ P, x.id = c ∧ Stands sv spent s op t older x) ∧ ∀ r, Event.ret c r ∉ H
  | .returned op runs res => Event.invoke c op ∈ H ∧ Outcome sv spent op runs res

variable {sv spent}

theorem CallInv.mono {H H' : List (Event I Op Res)} {P P' : List (Point σ I Op)} {s s' : σ} {c : I}
    {st : Status Op Rep Res} (h : CallInv sv spent H P s c st)
    (hinv : ∀ op, Event.invoke c op ∈ H' ↔ Event.invoke c op ∈ H)
    (hret : ∀ r, Event.ret c r ∈ H' ↔ Event.ret c r ∈ H)
    (hP : ∀ x, x.id = c → (x ∈ P' ↔ x ∈ P)) (hs : ∀ op, spent op s → spent op s') :
    CallInv sv spent H' P' s' c st := by
  have absent : (∀ x ∈ P, x.id ≠ c) → ∀ x ∈ P', x.id ≠ c :=
    fun hno x hx hc => hno x ((hP x hc).mp hx) hc
  match st with
  | .idle =>
    obtain ⟨hi, hno, hr⟩ := h
    exact ⟨fun op => by rw [hinv]; exact hi op, absent hno, fun r => by rw [hret]; exact hr r⟩
  | .active op [] =>
    obtain ⟨hi, hno, hr⟩ := h
    exact ⟨(hinv op).mpr hi, absent hno, fun r => by rw [hret]; exact hr r⟩
  | .active op (t :: older) =>
    obtain ⟨hi, ⟨x, hx, hc, hst⟩, hr⟩ := h
    refine ⟨(hinv op).mpr hi, ⟨x, (hP x hc).mpr hx, hc, hst.op_eq, hst.post, ?_⟩,
      fun r => by rw [hret]; exact hr r⟩
    exact hst.kind.imp_right fun ⟨hn, hch, hsp, ht⟩ => ⟨hn, hch, hs op hsp, ht⟩
  | .returned op runs res => exact ⟨(hinv op).mpr h.1, h.2⟩

structure Inv (sv : Service σ Op Rep Res) (spec : Spec σ Op Res) (spent : Op → σ → Prop)
    (w : World σ I Op Rep Res) (P : List (Point σ I Op)) : Prop where
  explains : Explains spec w.history P w.state
  calls : ∀ c, CallInv sv spent w.history P w.state c (w.calls c)

end invariant

section steps
variable {sv : Service σ Op Rep Res} {spec : Spec σ Op Res} {spent : Op → σ → Prop}
  {w : World σ I Op Rep Res} {P : List (Point σ I Op)} {c : I}

theorem effects_cons (op : Op) (t : Rep) (older : List Rep) :
    effects sv op (t :: older) = effects sv op older + if sv.changes op t then 1 else 0 := by
  unfold effects
  rw [List.countP_cons]

theorem stands_now (law : Lawful sv spec spent) (s : σ) (op : Op) (older : List Rep)
    (hold : effects sv op older = 0) (c : I) :
    Stands sv spent (sv.apply op s).1 op (sv.apply op s).2 older ⟨c, op, s, (sv.apply op s).1⟩ := by
  refine ⟨rfl, rfl, ?_⟩
  rw [effects_cons, hold]
  cases hch : sv.changes op (sv.apply op s).2 with
  | false => exact .inl ⟨rfl, rfl⟩
  | true => exact .inr ⟨rfl, rfl, law.spends op s hch, .inl rfl⟩

theorem Stands.outcome {op : Op} {t : Rep} {older : List Rep} {x : Point σ I Op} {s : σ}
    (h : Stands sv spent s op t older x) {resent : Bool} (hres : older = [] ∨ resent = true) :
    Outcome sv spent op (t :: older) (sv.finish op resent t) := by
  rcases h.kind with ⟨hzero, ht⟩ | ⟨hone, hch, _, ht⟩
  · refine ⟨by omega, t, older, resent, rfl, hres, rfl, ⟨_, ht⟩, .inl ?_⟩
    rw [effects_cons] at hzero
    omega
  · refine ⟨by omega, t, older, resent, rfl, hres, rfl, ?_⟩
    rcases ht with rfl | ⟨_, hquiet, u, hu, ht⟩
    · refine ⟨⟨_, rfl⟩, .inl ?_⟩
      rw [effects_cons, hch] at hone
      simpa using hone
    · exact ⟨⟨u, ht⟩, .inr ⟨hquiet, u, hu, ht⟩⟩

/-- The client's result is one that the point allows. -/
theorem Stands.step (law : Lawful sv spec spent) {op : Op} {t : Rep} {older : List Rep}
    {x : Point σ I Op} {s : σ} (h : Stands sv spent s op t older x) {resent : Bool}
    (hres : older = [] ∨ resent = true) : spec.step x.pre x.op (sv.finish op resent t) x.post := by
  rw [h.op_eq, h.post]
  rcases h.kind with ⟨_, rfl⟩ | ⟨_, hch, _, rfl | ⟨hne, _, u, hu, rfl⟩⟩
  · exact law.now op x.pre resent
  · exact law.now op x.pre resent
  · rw [hres.resolve_left hne]
    exact law.later op x.pre u hch hu

section updates
variable [DecidableEq I]

theorem inv_invoke (hi : Inv sv spec spent w P) (hc : w.calls c = .idle) (op : Op) :
    Inv sv spec spent { w with
      calls := Function.update w.calls c (.active op [])
      history := w.history ++ [.invoke c op] } P := by
  have hcall := hi.calls c
  rw [hc] at hcall
  obtain ⟨hfresh, hno, hret⟩ := hcall
  refine ⟨hi.explains.invoke hfresh, fun d => ?_⟩
  by_cases hd : d = c
  · subst hd
    dsimp only
    rw [Function.update_self]
    exact ⟨by simp, hno, fun r => by simpa using hret r⟩
  · dsimp only
    rw [Function.update_of_ne hd]
    exact (hi.calls d).mono (fun op' => by simp [hd]) (fun r => by simp) (fun _ _ => Iff.rfl)
      (fun _ h => h)

/-- An execution whose point `Q` records: only the call that ran is affected. -/
theorem inv_ran (law : Lawful sv spec spent) (hi : Inv sv spec spent w P) {op : Op}
    {runs : List Rep} {Q : List (Point σ I Op)}
    (hexp : Explains spec w.history Q (sv.apply op w.state).1)
    (hQ : ∀ x : Point σ I Op, x.id ≠ c → (x ∈ Q ↔ x ∈ P))
    (hcall : CallInv sv spent w.history Q (sv.apply op w.state).1 c
      (.active op ((sv.apply op w.state).2 :: runs))) :
    Inv sv spec spent { w with
      state := (sv.apply op w.state).1
      calls := Function.update w.calls c (.active op ((sv.apply op w.state).2 :: runs)) } Q := by
  refine ⟨hexp, fun d => ?_⟩
  by_cases hd : d = c
  · subst hd
    dsimp only
    rw [Function.update_self]
    exact hcall
  · dsimp only
    rw [Function.update_of_ne hd]
    refine (hi.calls d).mono (fun _ => Iff.rfl) (fun _ => Iff.rfl) (fun x hx => hQ x ?_)
      (fun op' h => law.keeps op' op w.state h)
    rw [hx]
    exact hd

theorem inv_run (law : Lawful sv spec spent) (hi : Inv sv spec spent w P) {op : Op}
    {runs : List Rep} (hc : w.calls c = .active op runs) :
    ∃ Q, Inv sv spec spent { w with
      state := (sv.apply op w.state).1
      calls := Function.update w.calls c (.active op ((sv.apply op w.state).2 :: runs)) } Q := by
  have hcall := hi.calls c
  rw [hc] at hcall
  have act : ∃ r, spec.step w.state op r (sv.apply op w.state).1 := ⟨_, law.now op w.state false⟩
  have others : ∀ R : List (Point σ I Op), ∀ x : Point σ I Op, x.id ≠ c →
      (x ∈ R ++ [⟨c, op, w.state, (sv.apply op w.state).1⟩] ↔ x ∈ R) := by
    intro R x hx
    rw [List.mem_append, List.mem_singleton, or_iff_left]
    rintro rfl
    exact hx rfl
  cases runs with
  | nil =>
    obtain ⟨hinv, hno, hret⟩ := hcall
    exact ⟨_, inv_ran law hi (hi.explains.point hinv hno hret act) (others P)
      ⟨hinv, ⟨_, by simp, rfl, stands_now law w.state op [] rfl c⟩, hret⟩⟩
  | cons t older =>
    obtain ⟨hinv, ⟨x, hx, hxc, hst⟩, hret⟩ := hcall
    rcases hst.kind with ⟨hzero, ht⟩ | ⟨hone, hch, hsp, ht⟩
    · -- nothing was changed so far: the point moves here
      obtain ⟨A, B, rfl⟩ := List.append_of_mem hx
      have hquiet : sv.changes op (sv.apply op x.pre).2 = false := by
        rw [← ht]
        cases h : sv.changes op t with
        | false => rfl
        | true =>
          rw [effects_cons, h] at hzero
          simp at hzero
      have hsame : x.pre = x.post := by rw [hst.post, law.quiet op _ hquiet]
      have hexp := hi.explains.retract hsame (by rwa [hxc])
      have hnew : ∀ y ∈ A ++ B, y.id ≠ c := by
        have hnd := hi.explains.nodup
        simp only [List.map_append, List.map_cons, List.nodup_middle, List.nodup_cons] at hnd
        intro y hy hyc
        rw [← List.map_append, hxc, ← hyc] at hnd
        exact hnd.1 (List.mem_map_of_mem hy)
      refine ⟨_, inv_ran law hi (hexp.point hinv hnew hret act) (fun y hy => ?_)
        ⟨hinv, ⟨_, by simp, rfl, stands_now law w.state op _ hzero c⟩, hret⟩⟩
      rw [others _ y hy]
      have hne : y ≠ x := fun h => hy (h ▸ hxc)
      simp [hne]
    · -- the change was made: the state is spent for the call and stays as it is
      have hidle := law.idle op w.state hsp
      have hstay := law.quiet op w.state hidle
      refine ⟨P, inv_ran law hi (by rw [hstay]; exact hi.explains) (fun _ _ => Iff.rfl)
        ⟨hinv, ⟨x, hx, hxc, hst.op_eq, hst.post, .inr ⟨?_, hch, by rwa [hstay],
          .inr ⟨by simp, hidle, w.state, hsp, rfl⟩⟩⟩, hret⟩⟩
      rw [effects_cons, hone, hidle]
      rfl

theorem inv_ret (law : Lawful sv spec spent) (hi : Inv sv spec spent w P) {op : Op} {t : Rep}
    {older : List Rep} (hc : w.calls c = .active op (t :: older)) {resent : Bool}
    (hres : older = [] ∨ resent = true) :
    Inv sv spec spent { w with
      calls := Function.update w.calls c (.returned op (t :: older) (sv.finish op resent t))
      history := w.history ++ [.ret c (sv.finish op resent t)] } P := by
  have hcall := hi.calls c
  rw [hc] at hcall
  obtain ⟨hinv, ⟨x, hx, rfl, hst⟩, hret⟩ := hcall
  refine ⟨hi.explains.ret hx hret (hst.step law hres), fun d => ?_⟩
  by_cases hd : d = x.id
  · subst hd
    dsimp only
    rw [Function.update_self]
    exact ⟨List.mem_append_left _ hinv, hst.outcome hres⟩
  · dsimp only
    rw [Function.update_of_ne hd]
    exact (hi.calls d).mono (fun op' => by simp) (fun r => by simp [hd]) (fun _ _ => Iff.rfl)
      (fun _ h => h)

theorem inv_step (law : Lawful sv spec spent) (hi : Inv sv spec spent w P) {l : Label I Op}
    {v : World σ I Op Rep Res} (h : exec sv w l = some v) : ∃ Q, Inv sv spec spent v Q := by
  cases l with
  | invoke c op =>
    dsimp only [exec] at h
    split at h
    case h_1 hc =>
      cases h
      exact ⟨P, inv_invoke hi hc op⟩
    case h_2 => cases h
  | run c =>
    dsimp only [exec] at h
    split at h
    case h_1 op runs hc =>
      cases h
      exact inv_run law hi hc
    case h_2 => cases h
  | ret c resent =>
    dsimp only [exec] at h
    split at h
    case h_1 op t older hc =>
      split_ifs at h with hres
      cases h
      exact ⟨P, inv_ret law hi hc (by simpa using hres)⟩
    case h_2 => cases h

end updates
end steps

section results
variable [DecidableEq I] {sv : Service σ Op Rep Res} {spec : Spec σ Op Res} {spent : Op → σ → Prop}
  {w : World σ I Op Rep Res} {tr : List (Transition (World σ I Op Rep Res) (Label I Op))}

theorem run_inv (law : Lawful sv spec spent) (run : Run (calls I sv) tr w) :
    ∃ P, Inv sv spec spent w P := by
  refine run.invariant (I := fun w => ∃ P, Inv sv spec spent w P) ?_ ?_
  · rintro _ rfl
    refine ⟨[], ?_, fun c => ⟨nofun, nofun, nofun⟩⟩
    rw [← law.init]
    exact .start
  · rintro s l u ⟨P, hi⟩ h
    exact inv_step law hi h

theorem linearizable [Nonempty Res] (law : Lawful sv spec spent) (run : Run (calls I sv) tr w) :
    Linearizable spec w.history := by
  obtain ⟨P, hi⟩ := run_inv law run
  exact hi.explains.linearizable

theorem once (law : Lawful sv spec spent) (run : Run (calls I sv) tr w) : Once w.history := by
  refine run.history (I := fun _ w => Once w.history) ?_ ?_
  · rintro _ rfl
    exact ⟨List.nodup_nil, List.nodup_nil⟩
  · intro tr w l u hrun h hstep
    obtain ⟨P, hi⟩ := run_inv law hrun
    cases l with
    | invoke c op =>
      have hcall := hi.calls c
      change exec sv w _ = _ at hstep
      dsimp only [exec] at hstep
      split at hstep
      · rename_i hc
        rw [hc] at hcall
        cases hstep
        exact h.invoke hcall.1
      · cases hstep
    | run c =>
      change exec sv w _ = _ at hstep
      dsimp only [exec] at hstep
      split at hstep <;> cases hstep
      exact h
    | ret c resent =>
      have hcall := hi.calls c
      change exec sv w _ = _ at hstep
      dsimp only [exec] at hstep
      split at hstep
      · rename_i hc
        rw [hc] at hcall
        split_ifs at hstep
        cases hstep
        exact h.ret hcall.2.2
      · cases hstep

theorem effects_le_one (law : Lawful sv spec spent) (run : Run (calls I sv) tr w) {c : I} {op : Op}
    {runs : List Rep} (hc : w.calls c = .active op runs) : effects sv op runs ≤ 1 := by
  obtain ⟨P, hi⟩ := run_inv law run
  have hcall := hi.calls c
  rw [hc] at hcall
  cases runs with
  | nil => exact Nat.zero_le _
  | cons t older =>
    obtain ⟨_, ⟨x, _, _, hst⟩, _⟩ := hcall
    rcases hst.kind with ⟨h, _⟩ | ⟨h, _⟩ <;> omega

theorem outcome (law : Lawful sv spec spent) (run : Run (calls I sv) tr w) {c : I} {op : Op}
    {runs : List Rep} {res : Res} (hc : w.calls c = .returned op runs res) :
    Outcome sv spent op runs res := by
  obtain ⟨P, hi⟩ := run_inv law run
  have hcall := hi.calls c
  rw [hc] at hcall
  exact hcall.2

end results
end DistributedLabs.Retries
