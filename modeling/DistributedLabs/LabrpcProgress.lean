import DistributedLabs.Fairness
import DistributedLabs.Labrpc

set_option autoImplicit false

/-!
# Every call returns

The comment at the head of `labrpc/labrpc.go`: `Call()` is guaranteed to return, perhaps
after a delay, except if the handler function on the server side does not return.
-/
namespace DistributedLabs.LabrpcProgress
open Runs Fairness Labrpc

variable {E N P A R : Type}

def own (k : ℕ) (l : Label E N P A R) : Prop :=
  match l with
  | .request _ .start => False
  | .request _ (.finish _) => False
  | .request j _ => j = k
  | _ => False

def Stage.rank : Stage R → ℕ
  | .sending => 6
  | .taken => 5
  | .connected => 4
  | .waiting => 3
  | .finishing _ => 2
  | .replying _ => 1
  | .returned _ => 0

structure Later (r q : Request E N P A R) : Prop where
  endname : q.endname = r.endname
  link : ∀ link, r.link = some link → q.link = some link
  handler : ∀ msg, r.handler = some (.returned msg) → q.handler = some (.returned msg)
  stage : q.stage = r.stage ∨ Stage.rank q.stage < Stage.rank r.stage

theorem Later.refl (r : Request E N P A R) : Later r r :=
  ⟨rfl, fun _ h => h, fun _ h => h, .inl rfl⟩

theorem Later.rank_le {r q : Request E N P A R} (h : Later r q) :
    Stage.rank q.stage ≤ Stage.rank r.stage := by
  rcases h.stage with hs | hs
  · exact Nat.le_of_eq (congrArg Stage.rank hs)
  · omega

theorem Later.trans {r q p : Request E N P A R} (h : Later r q) (h' : Later q p) : Later r p where
  endname := h'.endname.trans h.endname
  link link hl := h'.link link (h.link link hl)
  handler msg hm := h'.handler msg (h.handler msg hm)
  stage := by
    have := h.rank_le
    rcases h'.stage with hs | hs
    · rw [hs]
      exact h.stage
    · right
      omega

variable [DecidableEq P]

theorem moved_later {rn : Network E N P} {r q : Request E N P A R} {ev : Event R}
    (shape : Shape r) (h : Moved rn r ev q) : Later r q := by
  cases h with
  | read link hs =>
    have hnone := (shape.early (.inr hs)).2
    exact ⟨rfl, by simp [hnone], fun _ hm => hm, .inr (by simp [hs, Stage.rank])⟩
  | dispatch hs =>
    have hnone := (shape.connected hs).1
    exact ⟨rfl, fun _ hl => hl, by simp [hnone], .inr (by simp [hs, Stage.rank])⟩
  | start hh => exact ⟨rfl, fun _ hl => hl, by simp [hh], .inl rfl⟩
  | finish msg hh => exact ⟨rfl, fun _ hl => hl, by simp [hh], .inl rfl⟩
  | _ => exact ⟨rfl, fun _ hl => hl, fun _ hm => hm, .inr (by simp_all [Stage.rank])⟩

theorem moved_lower {rn : Network E N P} {r q : Request E N P A R} {ev : Event R} {j k : ℕ}
    (hown : own k (.request j ev : Label E N P A R)) (h : Moved rn r ev q) :
    j = k ∧ Stage.rank q.stage < Stage.rank r.stage := by
  cases h <;> simp_all [own, Stage.rank]

variable [DecidableEq E] [DecidableEq N]

/-- A request is never forgotten, and goes through its stages in order. -/
theorem step_later {tr : Trace E N P A R} {w v : World E N P A R} {l : Label E N P A R} {k : ℕ}
    {r : Request E N P A R} (run : Run (labrpc E N P A R) tr w) (hl : exec w l = some v)
    (hk : w.reqs[k]? = some r) : ∃ q, v.reqs[k]? = some q ∧ Later r q := by
  cases exec_stepped hl with
  | admin op net hop => exact ⟨r, hk, .refl r⟩
  | call endname args =>
    have hlt : k < w.reqs.length := (List.getElem?_eq_some_iff.mp hk).choose
    exact ⟨r, by rw [List.getElem?_append_left hlt, hk], .refl r⟩
  | request j ev r' q hj hq =>
    by_cases hjk : j = k
    · subst hjk
      obtain rfl : r' = r := Option.some.inj (hj.symm.trans hk)
      have hlt : j < w.reqs.length := (List.getElem?_eq_some_iff.mp hk).choose
      exact ⟨q, List.getElem?_set_self hlt, moved_later ((account run).shape j r' hk) hq⟩
    · exact ⟨r, by rw [List.getElem?_set_ne hjk, hk], .refl r⟩

theorem own_lower {w v : World E N P A R} {l : Label E N P A R} {k : ℕ} (hown : own k l)
    (hl : exec w l = some v) :
    ∃ r q, w.reqs[k]? = some r ∧ v.reqs[k]? = some q ∧
      Stage.rank q.stage < Stage.rank r.stage := by
  cases exec_stepped hl with
  | admin op net hop => cases hown
  | call endname args => cases hown
  | request j ev r q hj hq =>
    obtain ⟨rfl, hlt⟩ := moved_lower hown hq
    have hlen : j < w.reqs.length := (List.getElem?_eq_some_iff.mp hj).choose
    exact ⟨r, q, hj, List.getElem?_set_self hlen, hlt⟩

def Returned (k : ℕ) (w : World E N P A R) : Prop :=
  ∃ r msg, w.reqs[k]? = some r ∧ r.stage = .returned msg

def rank (k : ℕ) (w : World E N P A R) : ℕ :=
  (w.reqs[k]?.map fun r => Stage.rank r.stage).getD 0

section behavior
variable (b : Behavior (labrpc E N P A R)) {k n m : ℕ} {r : Request E N P A R}

theorem later_of_le (h : n ≤ m) (hk : (b.state n).reqs[k]? = some r) :
    ∃ q, (b.state m).reqs[k]? = some q ∧ Later r q := by
  refine b.respects (R := fun w v => ∀ r, w.reqs[k]? = some r →
    ∃ q, v.reqs[k]? = some q ∧ Later r q) (fun _ r hr => ⟨r, hr, .refl r⟩) ?_ ?_ h r hk
  · intro s u v hsu huv r hr
    obtain ⟨q, hq, hrq⟩ := hsu r hr
    obtain ⟨p, hp, hqp⟩ := huv q hq
    exact ⟨p, hp, hrq.trans hqp⟩
  · intro tr s l u run hl r hr
    exact step_later run hl hr

/-- The handler of the call, once there is one, returns, or its server is dead from some
    time on. -/
def HandlerReturns (k : ℕ) : Prop :=
  ∀ n r link, (b.state n).reqs[k]? = some r → r.handler.isSome → r.link = some link →
    ∃ m, n ≤ m ∧ ((∃ q msg, (b.state m).reqs[k]? = some q ∧ q.handler = some (.returned msg)) ∨
      ∀ m', m ≤ m' →
        (b.state m').net.isServerDead r.endname link.servername link.server = true)

theorem enabled_of_step {w : World E N P A R} (ev : Event R) (hk : w.reqs[k]? = some r)
    (hown : own k (.request k ev : Label E N P A R)) (h : (r.step w.net ev).isSome) :
    Enabled (labrpc E N P A R) (own k) w := by
  obtain ⟨q, hq⟩ := Option.isSome_iff_exists.mp h
  exact ⟨.request k ev, { w with reqs := w.reqs.set k q }, hown, by simp [labrpc, exec, hk, hq]⟩

theorem enabled_of_stage {w : World E N P A R} (shape : Shape r) (hk : w.reqs[k]? = some r)
    (hw : r.stage ≠ .waiting) (hr : ∀ msg, r.stage ≠ .returned msg) :
    Enabled (labrpc E N P A R) (own k) w := by
  cases hs : r.stage with
  | sending => exact enabled_of_step .take hk rfl (by simp [Request.step, hs])
  | taken =>
    refine enabled_of_step .read hk rfl ?_
    simp only [Request.step, hs]
    split <;> rfl
  | connected => exact enabled_of_step .dispatch hk rfl (by simp [Request.step, hs])
  | waiting => exact absurd hs hw
  | finishing reply =>
    obtain ⟨link, hl⟩ := Option.isSome_iff_exists.mp (shape.finishing reply hs).1
    refine enabled_of_step .reply hk rfl ?_
    cases reply with
    | none => simp [Request.step, hs, hl]
    | some msg =>
      simp only [Request.step, hs, hl]
      split <;> rfl
  | replying msg => exact enabled_of_step .deliver hk rfl (by simp [Request.step, hs])
  | returned msg => exact absurd hs (hr msg)

/-- A call whose stage does not change any more has a step to take from some time on. -/
theorem enabled_of_still (handler : HandlerReturns b k) (hk : (b.state n).reqs[k]? = some r)
    (still : ∀ m, n ≤ m → ∃ q, (b.state m).reqs[k]? = some q ∧ Later r q ∧ q.stage = r.stage)
    (hr : ∀ msg, r.stage ≠ .returned msg) :
    ∃ m, n ≤ m ∧ ∀ m', m ≤ m' → Enabled (labrpc E N P A R) (own k) (b.state m') := by
  have shape : ∀ m q, (b.state m).reqs[k]? = some q → Shape q := by
    intro m q hq
    obtain ⟨tr, run⟩ := b.run m
    exact (account run).shape k q hq
  by_cases hw : r.stage = .waiting
  · obtain ⟨hsome, hlink⟩ := (shape n r hk).waiting hw
    obtain ⟨link, hl⟩ := Option.isSome_iff_exists.mp hlink
    obtain ⟨m, hm, ⟨q, msg, hq, hdone⟩ | dead⟩ := handler n r link hk hsome hl
    · refine ⟨m, hm, fun m' hm' => ?_⟩
      obtain ⟨p, hp, hqp⟩ := later_of_le b hm' hq
      obtain ⟨p', hp', -, hstage⟩ := still m' (by omega)
      obtain rfl : p = p' := Option.some.inj (hp.symm.trans hp')
      refine enabled_of_step .collect hp rfl ?_
      simp [Request.step, hstage, hw, hqp.handler msg hdone]
    · refine ⟨m, hm, fun m' hm' => ?_⟩
      obtain ⟨p, hp, hrp, hstage⟩ := still m' (by omega)
      refine enabled_of_step .timeout hp rfl ?_
      simp [Request.step, hstage, hw, hrp.link link hl, hrp.endname, dead m' hm']
  · refine ⟨n, Nat.le_refl n, fun m hm => ?_⟩
    obtain ⟨q, hq, -, hstage⟩ := still m hm
    exact enabled_of_stage (shape m q hq) hq (hstage ▸ hw) fun msg => hstage ▸ hr msg

/-- If `Call` and `processReq` are not put off for ever, every call returns, except if its
    handler does not return although the server stays reachable. -/
theorem call_returns (fair : b.Fair (own k)) (handler : HandlerReturns b k)
    (called : k < (b.state n).reqs.length) : ∃ m, n ≤ m ∧ Returned k (b.state m) := by
  have exists_at : ∀ m, n ≤ m → ∃ r, (b.state m).reqs[k]? = some r := by
    intro m hm
    obtain ⟨q, hq, -⟩ := later_of_le b hm (List.getElem?_eq_getElem called)
    exact ⟨q, hq⟩
  have rank_eq : ∀ {w : World E N P A R} {r}, w.reqs[k]? = some r →
      rank k w = Stage.rank r.stage := fun h => by simp [rank, h]
  refine b.eventually fair (rank k) n ?_ ?_ ?_ (Nat.le_refl n)
  · intro m hm
    obtain ⟨r, hr⟩ := exists_at m hm
    obtain ⟨q, hq, hrq⟩ := later_of_le b (Nat.le_succ m) hr
    rw [rank_eq hr, rank_eq hq]
    exact hrq.rank_le
  · intro m l _ hl hown
    rcases b.step m with ⟨l', hl', hstep⟩ | ⟨hnone, -⟩
    · obtain rfl : l = l' := Option.some.inj (hl.symm.trans hl')
      obtain ⟨r, q, hr, hq, hlt⟩ := own_lower hown hstep
      rwa [rank_eq hr, rank_eq hq]
    · rw [hl] at hnone
      cases hnone
  · intro m hm still
    obtain ⟨r, hr⟩ := exists_at m hm
    refine enabled_of_still b handler hr (fun m' hm' => ?_) fun msg hmsg =>
      (still m (Nat.le_refl m)).1 ⟨r, msg, hr, hmsg⟩
    obtain ⟨q, hq, hrq⟩ := later_of_le b hm' hr
    have same := (still m' hm').2
    rw [rank_eq hr, rank_eq hq] at same
    exact ⟨q, hq, hrq, hrq.stage.resolve_right (by omega)⟩

end behavior

def answered : Behavior (labrpc ℕ ℕ ℕ ℕ ℕ) :=
  Behavior.replay exec (fun _ _ _ h => h) ⟨makeNetwork, []⟩ rfl answeredCall

theorem answered_end {m : ℕ} (h : answeredCall.length ≤ m) : ∃ r,
    (answered.state m).reqs[0]? = some r ∧ r.stage = .returned ⟨true, some 9⟩ ∧
    r.handler = some (.returned ⟨true, some 9⟩) := by
  have hlast : (follow exec ⟨makeNetwork, []⟩ answeredCall answeredCall.length).reqs[0]?.map
      (fun r => (r.stage, r.handler)) =
      some (.returned ⟨true, some 9⟩, some (.returned ⟨true, some 9⟩)) := by decide +kernel
  have hstate : answered.state m = follow exec ⟨makeNetwork, []⟩ answeredCall answeredCall.length :=
    follow_end _ _ h
  obtain ⟨r, hr, hs⟩ := Option.map_eq_some_iff.mp hlast
  obtain ⟨hstage, hhandler⟩ := Prod.mk.inj hs
  exact ⟨r, hstate ▸ hr, hstage, hhandler⟩

theorem call_returns_answered : answered.Fair (own 0) ∧ HandlerReturns answered 0 ∧
    ∃ m, 5 ≤ m ∧ Returned 0 (answered.state m) := by
  have fair : answered.Fair (own 0) := by
    intro n hen
    obtain ⟨l, u, hown, hstep⟩ := hen (max n answeredCall.length) (Nat.le_max_left _ _)
    obtain ⟨r, hr, hstage, -⟩ := answered_end (Nat.le_max_right n answeredCall.length)
    obtain ⟨r', q, hr', -, hlt⟩ := own_lower hown hstep
    obtain rfl : r = r' := Option.some.inj (hr.symm.trans hr')
    simp [hstage, Stage.rank] at hlt
  have handler : HandlerReturns answered 0 := by
    intro n _ _ _ _ _
    obtain ⟨r, hr, -, hhandler⟩ := answered_end (Nat.le_max_right n answeredCall.length)
    exact ⟨_, Nat.le_max_left n _, .inl ⟨r, _, hr, hhandler⟩⟩
  exact ⟨fair, handler, call_returns answered fair handler (by decide +kernel)⟩

end DistributedLabs.LabrpcProgress
