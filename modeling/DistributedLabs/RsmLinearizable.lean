import DistributedLabs.Linearizability
import DistributedLabs.RsmCommits

set_option autoImplicit false

/-!
# Submit is linearizable

A replicated service on Raft looks to the callers of `Submit` like one copy of the
service. An operation takes effect when its entry comes up for the first time, on
whichever server that is.
-/
namespace DistributedLabs.RsmLinearizable
open RsmModel Runs RsmStack RsmRefinement RsmCommits Linearizability

variable {n : ℕ} {R V B St : Type} {machine : StateMachine R V B St} {maxraftstate : ℤ}

def object (machine : StateMachine R V B St) : Spec St R V where
  init := machine.initial
  step st req v st' := machine.doOp st req = (v, st')

/-- What a step shows to the callers of `Submit`. A call that returns `ErrWrongLeader` may
    still take effect, so it never counts as having returned. -/
def visible (t : Transition (Stack n R V B St) (Label n R)) : Option (Event ℕ R V) :=
  match t.label with
  | .submit _ req =>
    if t.pre.calls.length < t.post.calls.length then some (.invoke t.pre.calls.length req) else none
  | .receive k =>
    match (t.post.calls[k]?).bind Submission.returned with
    | some ⟨some v, .ok⟩ => some (.ret k v)
    | _ => none
  | _ => none

def history (tr : List (Transition (Stack n R V B St) (Label n R))) : List (Event ℕ R V) :=
  (tr.filterMap visible).reverse

theorem history_cons (t : Transition (Stack n R V B St) (Label n R))
    (tr : List (Transition (Stack n R V B St) (Label n R))) :
    history (t :: tr) = history tr ++ (visible t).toList := by
  unfold history
  rw [List.filterMap_cons]
  cases visible t <;> simp

section points
variable {H : List (Event ℕ R V)} {P : List (Point St ℕ R)} {cs : List (Command n R)}
  {tickets : List (Ticket n R)} {t : Ticket n R} {x : Point St ℕ R}

structure Acts (machine : StateMachine R V B St) (cs : List (Command n R)) (t : Ticket n R)
    (x : Point St ℕ R) : Prop where
  landed : Landed cs t
  op : x.op = t.op.req
  pre : x.pre = fold machine (cs.take (t.index - 1))
  post : x.post = fold machine (cs.take t.index)

theorem Acts.append (h : Acts machine cs t x) (c : Command n R) : Acts machine (cs ++ [c]) t x := by
  have hle := h.landed.le
  refine ⟨h.landed.append c, h.op, ?_, ?_⟩
  · rw [List.take_append_of_le_length (by omega)]
    exact h.pre
  · rw [List.take_append_of_le_length hle]
    exact h.post

/-- The result `DoOp` gives on the log below the index is the one the object gives at the point. -/
theorem Acts.step (h : Acts machine cs t x) {v : V}
    (hv : v = (machine.doOp (fold machine (cs.take (t.index - 1))) t.op.req).1) :
    (object machine).step x.pre x.op v x.post := by
  have hpost : fold machine (cs.take t.index) =
      (machine.doOp (fold machine (cs.take (t.index - 1))) t.op.req).2 := by
    have hnext : fold machine (cs.take (t.index - 1 + 1)) = _ := fold_take_succ h.landed.2
    rwa [Nat.sub_add_cancel h.landed.1] at hnext
  simp only [object, h.pre, h.op, h.post, hpost, hv]

structure Linear (machine : StateMachine R V B St) (H : List (Event ℕ R V))
    (tickets : List (Ticket n R)) (cs : List (Command n R)) (P : List (Point St ℕ R)) : Prop where
  explains : Explains (object machine) H P (fold machine cs)
  invoked : ∀ k req, Event.invoke k req ∈ H → k < tickets.length
  called : ∀ (k : ℕ) (t : Ticket n R), tickets[k]? = some t → Event.invoke k t.op.req ∈ H
  points : ∀ x ∈ P, ∃ t, tickets[x.id]? = some t ∧ Acts machine cs t x
  complete : ∀ (k : ℕ) (t : Ticket n R), tickets[k]? = some t → Landed cs t → ∃ x ∈ P, x.id = k

theorem Linear.submit (h : Linear machine H tickets cs P) (hnew : ¬ Landed cs t) :
    Linear machine (H ++ [.invoke tickets.length t.op.req]) (tickets ++ [t]) cs P := by
  have hfresh : ∀ req, Event.invoke tickets.length req ∉ H :=
    fun req hmem => Nat.lt_irrefl _ (h.invoked _ req hmem)
  refine ⟨h.explains.invoke hfresh, ?_, ?_, ?_, ?_⟩
  · intro k req hmem
    rw [List.length_append, List.length_singleton]
    rcases List.mem_append.mp hmem with hmem | hmem
    · exact Nat.lt_succ_of_lt (h.invoked k req hmem)
    · cases List.mem_singleton.mp hmem
      exact Nat.lt_succ_self _
  · intro k t' hk
    rcases getElem?_snoc hk with hk | ⟨rfl, rfl⟩
    · exact List.mem_append_left _ (h.called k t' hk)
    · exact List.mem_append_right _ (List.mem_singleton_self _)
  · intro x hx
    obtain ⟨t', ht', hact⟩ := h.points x hx
    exact ⟨t', RaftProvenance.getElem?_initial (List.prefix_append _ _) ht', hact⟩
  · intro k t' hk hl
    rcases getElem?_snoc hk with hk | ⟨_, rfl⟩
    · exact h.complete k t' hk hl
    · exact absurd hl hnew

/-- The next command comes up for the first time. If it is an `Op`, its call acts now. -/
theorem Linear.next (h : Linear machine H tickets cs P) {c : Command n R}
    (howner : ∀ o, c = .op o → ∃ k t, tickets[k]? = some t ∧ t.index = cs.length + 1 ∧ t.op = o ∧
      (∀ v, Event.ret k v ∉ H) ∧ ∀ (k' : ℕ) (t' : Ticket n R), tickets[k']? = some t' →
        t'.index = cs.length + 1 → t'.op = o → k' = k) :
    ∃ P', Linear machine H tickets (cs ++ [c]) P' := by
  have hpoints : ∀ x ∈ P, ∃ t, tickets[x.id]? = some t ∧ Acts machine (cs ++ [c]) t x := by
    intro x hx
    obtain ⟨t, ht, hact⟩ := h.points x hx
    exact ⟨t, ht, hact.append c⟩
  cases c with
  | foreign =>
    refine ⟨P, ?_, h.invoked, h.called, hpoints, ?_⟩
    · rw [fold_snoc]
      exact h.explains
    · intro k t ht hl
      rcases hl.of_append with hl | ⟨_, hc⟩
      · exact h.complete k t ht hl
      · cases hc
  | op o =>
    obtain ⟨k, t, ht, hindex, rfl, hrunning, honly⟩ := howner o rfl
    refine ⟨P ++ [⟨k, t.op.req, fold machine cs, fold machine (cs ++ [.op t.op])⟩], ?_,
      h.invoked, h.called, ?_, ?_⟩
    · refine h.explains.point (h.called k t ht) ?_ hrunning
        ⟨(machine.doOp (fold machine cs) t.op.req).1, ?_⟩
      · rintro x hx rfl
        obtain ⟨t', ht', hact⟩ := h.points x hx
        rw [ht] at ht'
        cases ht'
        have := hact.landed.le
        omega
      · rw [fold_snoc]
        rfl
    · intro x hx
      rcases List.mem_append.mp hx with hx | hx
      · exact hpoints x hx
      · rw [List.mem_singleton.mp hx]
        refine ⟨t, ht, ⟨⟨by omega, ?_⟩, rfl, ?_, ?_⟩⟩
        · rw [hindex, Nat.add_sub_cancel, List.getElem?_concat_length]
        · rw [hindex, Nat.add_sub_cancel, List.take_left]
        · rw [hindex, List.take_of_length_le (by simp)]
    · intro k' t' ht' hl
      rcases hl.of_append with hl | ⟨hidx, hop⟩
      · obtain ⟨x, hx, hid⟩ := h.complete k' t' ht' hl
        exact ⟨x, List.mem_append_left _ hx, hid⟩
      · rw [honly k' t' ht' hidx (Command.op.inj hop).symm]
        exact ⟨_, List.mem_append_right _ (List.mem_singleton_self _), rfl⟩

theorem Linear.ret (h : Linear machine H tickets cs P) {k : ℕ} (ht : tickets[k]? = some t)
    (hl : Landed cs t) (hrunning : ∀ v, Event.ret k v ∉ H) {v : V}
    (hv : v = (machine.doOp (fold machine (cs.take (t.index - 1))) t.op.req).1) :
    Linear machine (H ++ [.ret k v]) tickets cs P := by
  obtain ⟨x, hx, rfl⟩ := h.complete k t ht hl
  obtain ⟨t', ht', hact⟩ := h.points x hx
  rw [ht] at ht'
  cases ht'
  refine { h with explains := h.explains.ret hx hrunning (hact.step hv), invoked := ?_, called := ?_ }
  · intro k req hmem
    rcases List.mem_append.mp hmem with hmem | hmem
    · exact h.invoked k req hmem
    · cases List.mem_singleton.mp hmem
  · exact fun k t hk => List.mem_append_left _ (h.called k t hk)

end points

section steps
variable [DecidableEq R] {w u : Stack n R V B St} {p : Fin n}
  {tr : List (Transition (Stack n R V B St) (Label n R))} {cs : List (Command n R)}
  {P : List (Point St ℕ R)} {H : List (Event ℕ R V)}

def Settled (H : List (Event ℕ R V)) (calls : List (Submission n R V)) : Prop :=
  ∀ k v, Event.ret k v ∈ H → ∃ c, calls[k]? = some c ∧ c.returned = some ⟨some v, .ok⟩

/-- Nobody has had a reply for an index that has not come up. -/
theorem not_returned (h : Standing machine maxraftstate w cs) (hS : Settled H w.calls) {k : ℕ}
    {c : Submission n R V} (hk : w.calls[k]? = some c) (hindex : c.index = cs.length + 1) (v : V) :
    Event.ret k v ∉ H := by
  intro hmem
  obtain ⟨c', hc', hret⟩ := hS k v hmem
  rw [hk] at hc'
  cases hc'
  have hle := (h.returned hk hret).1.le
  change c.index ≤ _ at hle
  omega

theorem linear_send (h : Standing machine maxraftstate w cs)
    (hL : Linear machine H (w.calls.map ticket) cs P) (hS : Settled H w.calls) {c : Command n R}
    (hcalls : u.calls = w.calls) (h' : Standing machine maxraftstate u (cs ++ [c])) :
    ∃ P', Linear machine H (w.calls.map ticket) (cs ++ [c]) P' := by
  refine hL.next ?_
  rintro o rfl
  obtain ⟨k, call, hk, hindex, hop⟩ := h'.owner List.getElem?_concat_length
  rw [hcalls] at hk
  refine ⟨k, ticket call, by rw [List.getElem?_map, hk]; rfl, hindex, hop,
    not_returned h hS hk hindex, ?_⟩
  intro k' t' ht' hindex' hop'
  rw [List.getElem?_map, Option.map_eq_some_iff] at ht'
  obtain ⟨call', hk', rfl⟩ := ht'
  exact h.unique hk' hk (hindex'.trans hindex.symm) (hop'.trans hop.symm)

theorem linear_quiet (hw : Standing machine maxraftstate w cs)
    (hu : Standing machine maxraftstate u cs)
    (hL : Linear machine (history tr) (w.calls.map ticket) cs P) (hS : Settled (history tr) w.calls)
    {l : Label n R} (h : Stepped machine w l u) :
    (∃ P', Linear machine (history (⟨w, l, u⟩ :: tr)) (u.calls.map ticket) cs P') ∧
      Settled (history (⟨w, l, u⟩ :: tr)) u.calls := by
  have quiet : visible ⟨w, l, u⟩ = none → u.calls.map ticket = w.calls.map ticket →
      (∀ (k : ℕ) c, w.calls[k]? = some c → c.returned ≠ none →
        ∃ c', u.calls[k]? = some c' ∧ c'.returned = c.returned) →
      (∃ P', Linear machine (history (⟨w, l, u⟩ :: tr)) (u.calls.map ticket) cs P') ∧
        Settled (history (⟨w, l, u⟩ :: tr)) u.calls := by
    intro hvis ht hret
    rw [history_cons, hvis, Option.toList_none, List.append_nil, ht]
    refine ⟨⟨P, hL⟩, ?_⟩
    intro k v hmem
    obtain ⟨c, hc, hr⟩ := hS k v hmem
    obtain ⟨c', hc', hr'⟩ := hret k c hc (by simp [hr])
    exact ⟨c', hc', hr'.trans hr⟩
  have unchanged : ∀ (k : ℕ) c, w.calls[k]? = some c → c.returned ≠ none →
      ∃ c', w.calls[k]? = some c' ∧ c'.returned = c.returned :=
    fun _ c hc _ => ⟨c, hc, rfl⟩
  have fed : ∀ {calls : List (Submission n R V)}, FedAll w.calls calls →
      ∀ (k : ℕ) c, w.calls[k]? = some c → c.returned ≠ none →
        ∃ c', calls[k]? = some c' ∧ c'.returned = c.returned := by
    intro calls hf k c hc _
    obtain ⟨c', hc', hfed⟩ := hf.each k c hc
    exact ⟨c', hc', hfed.returned⟩
  -- only a call that has not returned is changed
  have updated : ∀ {k : ℕ} {c c' : Submission n R V}, w.calls[k]? = some c → c.returned = none →
      ∀ (j : ℕ) d, w.calls[j]? = some d → d.returned ≠ none →
        ∃ d', (w.calls.set k c')[j]? = some d' ∧ d'.returned = d.returned := by
    intro k c c' hk hret j d hd hne
    have hjk : k ≠ j := by
      rintro rfl
      rw [hk] at hd
      cases hd
      exact hne hret
    exact ⟨d, by rw [List.getElem?_set_ne hjk]; exact hd, rfl⟩
  cases h with
  | submitDead p req dead => exact quiet (by simp [visible]) rfl unchanged
  | refused p req alive follows => exact quiet (by simp [visible, Stack.setRSM]) rfl unchanged
  | submitted p req alive lead =>
    have hnew := hw.not_landed hu rfl
    have hvis : ∀ u : Stack n R V B St, w.calls.length < u.calls.length →
        visible ⟨w, .submit p req, u⟩ = some (.invoke w.calls.length req) := by
      intro u hlt
      simp [visible, hlt]
    rw [history_cons, hvis _ (by simp), List.map_append]
    refine ⟨⟨P, ?_⟩, ?_⟩
    · have := hL.submit hnew
      rwa [List.length_map] at this
    · intro k v hmem
      rcases List.mem_append.mp hmem with hmem | hmem
      · obtain ⟨c, hc, hr⟩ := hS k v hmem
        exact ⟨c, RaftProvenance.getElem?_initial (List.prefix_append _ _) hc, hr⟩
      · cases List.mem_singleton.mp hmem
  | receive k c res hk hch hepoch hret =>
    have hlt := (List.getElem?_eq_some_iff.mp hk).choose
    have hself : (w.calls.set k { c with ch := none, returned := some res })[k]? =
        some { c with ch := none, returned := some res } := List.getElem?_set_self hlt
    by_cases hok : ∃ v, res = ⟨some v, .ok⟩
    · obtain ⟨v, rfl⟩ := hok
      obtain ⟨hl, hv⟩ := hw.waiting hk hch
      have hrunning : ∀ v, Event.ret k v ∉ history tr := by
        intro v hmem
        obtain ⟨c', hc', hr⟩ := hS k v hmem
        rw [hk] at hc'
        cases hc'
        rw [hret] at hr
        cases hr
      have hvis : visible ⟨w, .receive k, { w with
          calls := w.calls.set k { c with ch := none, returned := some ⟨some v, .ok⟩ } }⟩ =
          some (.ret k v) := by
        simp [visible, hself]
      have ht := tickets_set (d := { c with ch := none, returned := some ⟨some v, .ok⟩ }) hk rfl
      rw [history_cons, hvis]
      refine ⟨⟨P, ?_⟩, ?_⟩
      · dsimp only
        rw [ht]
        exact hL.ret (by rw [List.getElem?_map, hk]; rfl) hl hrunning hv
      · intro j v' hmem
        rcases List.mem_append.mp hmem with hmem | hmem
        · obtain ⟨d, hd, hr⟩ := hS j v' hmem
          obtain ⟨d', hd', hr'⟩ := updated hk hret j d hd (by simp [hr])
          exact ⟨d', hd', hr'.trans hr⟩
        · cases List.mem_singleton.mp hmem
          exact ⟨_, hself, rfl⟩
    · refine quiet ?_ (tickets_set hk rfl) (updated hk hret)
      simp only [visible, hself, Option.bind_some]
      split
      · rename_i v heq
        exact absurd ⟨v, Option.some.inj heq⟩ hok
      · rfl
  | timeout k c hk hepoch hret rsm c' h =>
    exact quiet rfl (tickets_set hk (ticket_timeout h)) (updated hk hret)
  | read p raft rsm calls hraft h => exact quiet rfl (fed_read h).tickets (fed (fed_read h))
  | finish p rsm calls h => exact quiet rfl (fed_finish h).tickets (fed (fed_finish h))
  | stop p rsm calls h => exact quiet rfl (fed_stop h).tickets (fed (fed_stop h))
  | raft | startForeign | send | skipSnapshot | snapshot | restart => exact quiet rfl rfl unchanged

end steps

section runs
variable [DecidableEq R] {w : Stack n R V B St}
  {tr : List (Transition (Stack n R V B St) (Label n R))}

theorem explained (round : Restores machine)
    (run : Run ((stack n machine maxraftstate).guarded Fresh) tr w) :
    ∃ P st, Explains (object machine) (history tr) P st := by
  have joint : ∃ cs P, Standing machine maxraftstate w cs ∧
      Linear machine (history tr) (w.calls.map ticket) cs P ∧ Settled (history tr) w.calls := by
    refine run.history (I := fun tr w => ∃ cs P, Standing machine maxraftstate w cs ∧
      Linear machine (history tr) (w.calls.map ticket) cs P ∧ Settled (history tr) w.calls) ?_ ?_
    · rintro _ rfl
      refine ⟨[], [], standing_initial round, ?_, fun k v hmem => by cases hmem⟩
      exact ⟨Explains.start, fun k req hmem => (by cases hmem), fun k t hk => (by cases hk),
        fun x hx => (by cases hx), fun k t hk => (by cases hk)⟩
    · rintro tr w l u - ⟨cs, P, hw, hL, hS⟩ ⟨h, hfresh⟩
      have hstep := exec_spec h
      rcases hw.step round hfresh hstep with hu | ⟨p, c, rfl, hcalls, hu⟩
      · obtain ⟨⟨P', hL'⟩, hS'⟩ := linear_quiet hw hu hL hS hstep
        exact ⟨cs, P', hu, hL', hS'⟩
      · have hvis : visible ⟨w, .send p, u⟩ = none := rfl
        obtain ⟨P', hL'⟩ := linear_send hw hL hS hcalls hu
        rw [history_cons, hvis, Option.toList_none, List.append_nil, hcalls]
        exact ⟨_, P', hu, hL', hS⟩
  obtain ⟨cs, P, _, hL, _⟩ := joint
  exact ⟨P, _, hL.explains⟩

theorem submit_linearizable [Nonempty V]
    (round : Restores machine)
    (run : Run ((stack n machine maxraftstate).guarded Fresh) tr w) :
    Linearizable (object machine) (history tr) := by
  obtain ⟨P, st, h⟩ := explained round run
  exact h.linearizable

end runs

theorem submit_linearizable_adder : ∃ r, replay (execFresh adder 10) (initial adder) []
      [.raft (.tick (0 : Fin 2)), .raft (.startElection 0), .raft (.sendRequestVote 0 1 1),
        .raft (.handle 0), .raft (.reply 0), .submit 0 7, .submit 0 5, .raft (.replicateOnce 0 1),
        .raft (.handle 0), .raft (.reply 0), .raft (.applier 0), .send 0, .read 0, .finish 0,
        .maybeSnapshot 0 10, .receive 0, .raft (.applier 0), .send 0, .read 0, .finish 0,
        .receive 1] = some r ∧
    history r.1 = [.invoke 0 7, .invoke 1 5, .ret 0 7, .ret 1 12] ∧
    Linearizable (object adder) (history r.1) := by
  have hsome : (replay (execFresh adder 10) (initial adder) []
      [.raft (.tick (0 : Fin 2)), .raft (.startElection 0), .raft (.sendRequestVote 0 1 1),
        .raft (.handle 0), .raft (.reply 0), .submit 0 7, .submit 0 5, .raft (.replicateOnce 0 1),
        .raft (.handle 0), .raft (.reply 0), .raft (.applier 0), .send 0, .read 0, .finish 0,
        .maybeSnapshot 0 10, .receive 0, .raft (.applier 0), .send 0, .read 0, .finish 0,
        .receive 1]).map (fun r => history r.1) =
      some [.invoke 0 7, .invoke 1 5, .ret 0 7, .ret 1 12] := by decide +kernel
  obtain ⟨r, hr, hh⟩ := Option.map_eq_some_iff.mp hsome
  exact ⟨r, hr, hh, submit_linearizable (fun _ _ => rfl)
    (Run.replay (fun _ _ _ h => execFresh_step h) _ (.start rfl) hr)⟩

end DistributedLabs.RsmLinearizable
