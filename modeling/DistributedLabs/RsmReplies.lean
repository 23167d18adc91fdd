import DistributedLabs.RsmCluster

set_option autoImplicit false

/-!
# Replies of Submit

A waiter is recognised by its index, its server and its id. Ids start again with
every incarnation of a server, so this identifies the operation as long as no
earlier incarnation was given the same index for the same id.
-/
namespace DistributedLabs.RsmReplies
open RsmModel RsmCluster Runs

variable {n : ℕ} {R V B St : Type} {w u : World n R V B St}

/-- The result `DoOp` gave for the request of `c` at its index, where its very `Op` was
    delivered. -/
def Answers (w : World n R V B St) (c : Submission n R V) (val : Option V) : Prop :=
  w.decided c.index = some (.op c.op) ∧
    ∃ v, val = some v ∧ ⟨c.server, c.epoch, c.index, c.op.req, v⟩ ∈ w.applied

def Fresh (w : World n R V B St) : Label n R B → Prop
  | .submit p _ index _ true => ∀ c ∈ w.calls, c.server = p → c.epoch < (w.servers p).epoch →
      c.index = index → c.op.id ≠ (w.servers p).rsm.nextId + 1
  | _ => True

structure Same (c c' : Submission n R V) : Prop where
  server : c'.server = c.server
  epoch : c'.epoch = c.epoch
  op : c'.op = c.op
  index : c'.index = c.index

theorem Same.refl (c : Submission n R V) : Same c c := ⟨rfl, rfl, rfl, rfl⟩

structure CallInv (w : World n R V B St) (c : Submission n R V) : Prop where
  me : c.op.me = c.server
  epoch : c.epoch ≤ (w.servers c.server).epoch
  id : c.epoch = (w.servers c.server).epoch → c.op.id ≤ (w.servers c.server).rsm.nextId
  waiting : ∀ val, c.ch = some ⟨val, .ok⟩ → Answers w c val
  returned : ∀ val, c.returned = some ⟨val, .ok⟩ → Answers w c val

structure ServerInv (w : World n R V B St) (p : Fin n) (x : Server n R V B St) : Prop where
  me : x.rsm.me = p
  pending : ∀ y ∈ x.rsm.pending, ∃ c, w.calls[y.2]? = some c ∧ c.server = p ∧
    c.epoch = x.epoch ∧ c.index = y.1
  channel : ∀ command index, .command command index ∈ x.rsm.applyCh →
    w.decided index = some command
  reader : ∀ index o result, x.rsm.reader = .applied index o result →
    w.decided index = some (.op o) ∧ ⟨p, x.epoch, index, o.req, result⟩ ∈ w.applied

structure Inv (w : World n R V B St) : Prop where
  calls : ∀ (k : ℕ) (c : Submission n R V), w.calls[k]? = some c → CallInv w c
  distinct : ∀ (j k : ℕ) (c c' : Submission n R V), w.calls[j]? = some c →
    w.calls[k]? = some c' → c.server = c'.server →
    c.index = c'.index → c.op.id = c'.op.id → j = k
  servers : ∀ p, ServerInv w p (w.servers p)
  decided : ∀ index o, w.decided index = some (.op o) → w.Started (.op o) index

structure Extends (w u : World n R V B St) : Prop where
  decided : ∀ index command, w.decided index = some command → u.decided index = some command
  applied : ∀ a ∈ w.applied, a ∈ u.applied
  calls : ∀ (k : ℕ) (c : Submission n R V), w.calls[k]? = some c →
    ∃ c', u.calls[k]? = some c' ∧ Same c c'

theorem Answers.extend (he : Extends w u) {c c' : Submission n R V} (hs : Same c c')
    {val : Option V} (h : Answers w c val) : Answers u c' val := by
  obtain ⟨hd, v, hv, ha⟩ := h
  refine ⟨?_, v, hv, ?_⟩
  · rw [hs.index, hs.op]
    exact he.decided _ _ hd
  · rw [hs.server, hs.epoch, hs.index, hs.op]
    exact he.applied _ ha

theorem Started.extend (he : Extends w u) {o : Op n R} {index : ℕ}
    (h : w.Started (.op o) index) : u.Started (.op o) index := by
  obtain ⟨c, hc, hi, ho⟩ := h
  obtain ⟨k, hk⟩ := List.mem_iff_getElem?.mp hc
  obtain ⟨c', hc', hs⟩ := he.calls k c hk
  exact ⟨c', List.mem_of_getElem? hc', hs.index.trans hi, hs.op.trans ho⟩

theorem ServerInv.extend (he : Extends w u) {p : Fin n} {x : Server n R V B St}
    (h : ServerInv w p x) : ServerInv u p x := by
  refine ⟨h.me, ?_, fun _ _ hm => he.decided _ _ (h.channel _ _ hm), ?_⟩
  · intro y hy
    obtain ⟨c, hc, hserver, hepoch, hindex⟩ := h.pending y hy
    obtain ⟨c', hc', hs⟩ := he.calls _ _ hc
    exact ⟨c', hc', hs.server.trans hserver, hs.epoch.trans hepoch, hs.index.trans hindex⟩
  · intro index o result hr
    obtain ⟨hd, ha⟩ := h.reader index o result hr
    exact ⟨he.decided _ _ hd, he.applied _ ha⟩

section calls

theorem Answers.same {c c' : Submission n R V} (hs : Same c c') {val : Option V}
    (h : Answers u c val) : Answers u c' val :=
  h.extend ⟨fun _ _ h => h, fun _ h => h, fun _ c hc => ⟨c, hc, Same.refl c⟩⟩ hs

/-- What a step that adds no call may do to one: every new `OK` is accounted for in `u`. -/
structure Renewed (u : World n R V B St) (c c' : Submission n R V) : Prop extends Same c c' where
  waiting : ∀ val, c'.ch = some ⟨val, .ok⟩ → c.ch = some ⟨val, .ok⟩ ∨ Answers u c' val
  returned : ∀ val, c'.returned = some ⟨val, .ok⟩ →
    c.returned = some ⟨val, .ok⟩ ∨ c.ch = some ⟨val, .ok⟩ ∨ Answers u c' val

theorem Renewed.refl (u : World n R V B St) (c : Submission n R V) : Renewed u c c :=
  ⟨Same.refl c, fun _ h => .inl h, fun _ h => .inl h⟩

theorem Renewed.trans {a b c : Submission n R V} (h : Renewed u a b) (h' : Renewed u b c) :
    Renewed u a c := by
  have hs := h'.toSame
  refine ⟨⟨hs.server.trans h.server, hs.epoch.trans h.epoch, hs.op.trans h.op,
    hs.index.trans h.index⟩, ?_, ?_⟩
  · intro val hval
    rcases h'.waiting val hval with hb | hb
    · exact (h.waiting val hb).imp_right (Answers.same hs)
    · exact .inr hb
  · intro val hval
    rcases h'.returned val hval with hb | hb | hb
    · exact (h.returned val hb).imp_right (Or.imp_right (Answers.same hs))
    · exact .inr ((h.waiting val hb).imp_right (Answers.same hs))
    · exact .inr (.inr hb)

structure Updated (u : World n R V B St) (l l' : List (Submission n R V)) : Prop where
  length : l'.length = l.length
  each : ∀ (k : ℕ) (c' : Submission n R V), l'[k]? = some c' → ∃ c, l[k]? = some c ∧ Renewed u c c'

theorem Updated.refl (u : World n R V B St) (l : List (Submission n R V)) : Updated u l l :=
  ⟨rfl, fun _ c hc => ⟨c, hc, Renewed.refl u c⟩⟩

theorem Updated.trans {l l' l'' : List (Submission n R V)} (h : Updated u l l')
    (h' : Updated u l' l'') : Updated u l l'' := by
  refine ⟨h'.length.trans h.length, ?_⟩
  intro k c'' hc''
  obtain ⟨c', hc', hr'⟩ := h'.each k c'' hc''
  obtain ⟨c, hc, hr⟩ := h.each k c' hc'
  exact ⟨c, hc, hr.trans hr'⟩

theorem Updated.set {l : List (Submission n R V)} {k : ℕ} {c c' : Submission n R V}
    (hc : l[k]? = some c) (hr : Renewed u c c') : Updated u l (l.set k c') := by
  have hlt : k < l.length := (List.getElem?_eq_some_iff.mp hc).choose
  refine ⟨List.length_set, ?_⟩
  intro j a' ha'
  by_cases hj : k = j
  · subst hj
    rw [List.getElem?_set_self hlt] at ha'
    cases ha'
    exact ⟨c, hc, hr⟩
  · rw [List.getElem?_set_ne hj] at ha'
    exact ⟨a', ha', Renewed.refl u a'⟩

theorem renewed_offer {c : Submission n R V} {res : OpResult V}
    (hres : ∀ val, res = ⟨val, .ok⟩ → Answers u c val) : Renewed u c (c.offer res) := by
  have hs : Same c (c.offer res) := by
    unfold Submission.offer
    split <;> exact ⟨rfl, rfl, rfl, rfl⟩
  refine ⟨hs, ?_, ?_⟩
  · intro val hval
    cases hch : c.ch with
    | some r =>
      simp only [Submission.offer, hch] at hval
      exact .inl hval
    | none =>
      simp only [Submission.offer, hch, Option.some.injEq] at hval
      exact .inr (Answers.same hs (hres val hval))
  · intro val hval
    left
    cases hch : c.ch <;> simpa only [Submission.offer, hch] using hval

theorem updated_post {l : List (Submission n R V)} {k : ℕ} {res : OpResult V}
    (hres : ∀ c val, l[k]? = some c → res = ⟨val, .ok⟩ → Answers u c val) :
    Updated u l (post l k res) := by
  refine ⟨List.length_modify _ _ _, ?_⟩
  intro j c' hc'
  rw [post, List.getElem?_modify] at hc'
  obtain ⟨c, hc, rfl⟩ := Option.map_eq_some_iff.mp hc'
  refine ⟨c, hc, ?_⟩
  split_ifs with hj
  · subst hj
    exact renewed_offer fun val h => hres c val hc h
  · exact Renewed.refl u c

/-- Waking waiters gives nobody an `OK`. -/
theorem updated_wake (ws : List (ℕ × ℕ)) (l : List (Submission n R V)) :
    Updated u l (wake l ws) := by
  induction ws generalizing l with
  | nil => exact Updated.refl u l
  | cons x ws ih => exact (updated_post fun _ _ _ h => by cases h).trans (ih _)

theorem Updated.extends (hl : Updated u w.calls u.calls)
    (hd : ∀ index command, w.decided index = some command → u.decided index = some command)
    (ha : ∀ a ∈ w.applied, a ∈ u.applied) : Extends w u := by
  refine ⟨hd, ha, ?_⟩
  intro k c hc
  have hlt : k < u.calls.length := by
    rw [hl.length]
    exact (List.getElem?_eq_some_iff.mp hc).choose
  obtain ⟨c', hc', hr⟩ := hl.each k _ (List.getElem?_eq_getElem hlt)
  rw [hc] at hc'
  cases hc'
  exact ⟨_, List.getElem?_eq_getElem hlt, hr.toSame⟩

end calls

section steps
variable {p : Fin n} {x : Server n R V B St} {l : List (Submission n R V)}

structure Later (w u : World n R V B St) : Prop where
  epoch : ∀ q, (w.servers q).epoch ≤ (u.servers q).epoch
  id : ∀ q, (u.servers q).epoch = (w.servers q).epoch →
    (w.servers q).rsm.nextId ≤ (u.servers q).rsm.nextId

theorem later_update (hu : u.servers = Function.update w.servers p x)
    (hepoch : (w.servers p).epoch ≤ x.epoch)
    (hid : x.epoch = (w.servers p).epoch → (w.servers p).rsm.nextId ≤ x.rsm.nextId) :
    Later w u := by
  constructor
  · intro q
    by_cases hq : q = p
    · subst hq
      rw [hu, Function.update_self]
      exact hepoch
    · have hsame : u.servers q = w.servers q := by rw [hu, Function.update_of_ne hq]
      exact Nat.le_of_eq (by rw [hsame])
  · intro q
    by_cases hq : q = p
    · subst hq
      rw [hu, Function.update_self]
      exact hid
    · rw [hu, Function.update_of_ne hq]
      exact fun _ => Nat.le_refl _

theorem CallInv.renew {c c' : Submission n R V} (h : CallInv w c) (he : Extends w u)
    (hlater : Later w u) (hr : Renewed u c c') : CallInv u c' := by
  have hs := hr.toSame
  refine ⟨by rw [hs.op, hs.server]; exact h.me, ?_, ?_, ?_, ?_⟩
  · rw [hs.epoch, hs.server]
    exact Nat.le_trans h.epoch (hlater.epoch _)
  · rw [hs.epoch, hs.server, hs.op]
    intro hsame
    have hle := h.epoch
    have hge := hlater.epoch c.server
    exact Nat.le_trans (h.id (by omega)) (hlater.id _ (by omega))
  · intro val hval
    rcases hr.waiting val hval with h' | h'
    · exact (h.waiting val h').extend he hs
    · exact h'
  · intro val hval
    rcases hr.returned val hval with h' | h' | h'
    · exact (h.returned val h').extend he hs
    · exact (h.waiting val h').extend he hs
    · exact h'

theorem Inv.move {decided : ℕ → Option (Command n R)} {applied : List (Applied n R V)}
    {foreign : List ℕ} (hi : Inv w)
    (hl : Updated ⟨Function.update w.servers p x, l, foreign, decided, applied⟩ w.calls l)
    (hd : ∀ index command, w.decided index = some command → decided index = some command)
    (ha : ∀ a ∈ w.applied, a ∈ applied)
    (hx : ServerInv ⟨Function.update w.servers p x, l, foreign, decided, applied⟩ p x)
    (hepoch : (w.servers p).epoch ≤ x.epoch)
    (hid : x.epoch = (w.servers p).epoch → (w.servers p).rsm.nextId ≤ x.rsm.nextId)
    (hdec : ∀ index o, decided index = some (.op o) → w.Started (.op o) index) :
    Inv ⟨Function.update w.servers p x, l, foreign, decided, applied⟩ := by
  have he : Extends w ⟨Function.update w.servers p x, l, foreign, decided, applied⟩ :=
    hl.extends hd ha
  refine ⟨?_, ?_, ?_, fun index o h => Started.extend he (hdec index o h)⟩
  · intro k c' hc'
    obtain ⟨c, hc, hr⟩ := hl.each k c' hc'
    exact (hi.calls k c hc).renew he (later_update rfl hepoch hid) hr
  · intro j k c c' hc hc' hserver hindex hop
    obtain ⟨a, ha, hra⟩ := hl.each j c hc
    obtain ⟨b, hb, hrb⟩ := hl.each k c' hc'
    refine hi.distinct j k a b ha hb ?_ ?_ ?_
    · rw [← hra.server, ← hrb.server]; exact hserver
    · rw [← hra.index, ← hrb.index]; exact hindex
    · rw [← hra.op, ← hrb.op]; exact hop
  · intro q
    by_cases hq : q = p
    · subst hq
      dsimp only
      rw [Function.update_self]
      exact hx
    · dsimp only
      rw [Function.update_of_ne hq]
      exact (hi.servers q).extend he

theorem Inv.quiet (hi : Inv w) (rsm : RSM n R V B St)
    (hl : Updated ⟨Function.update w.servers p { w.servers p with rsm := rsm }, l, w.foreign,
      w.decided, w.applied⟩ w.calls l)
    (hme : rsm.me = (w.servers p).rsm.me)
    (hpending : ∀ y ∈ rsm.pending, y ∈ (w.servers p).rsm.pending)
    (hchannel : ∀ m ∈ rsm.applyCh, m ∈ (w.servers p).rsm.applyCh)
    (hreader : ∀ index o result, rsm.reader = .applied index o result →
      (w.servers p).rsm.reader = .applied index o result)
    (hid : (w.servers p).rsm.nextId ≤ rsm.nextId) :
    Inv ⟨Function.update w.servers p { w.servers p with rsm := rsm }, l, w.foreign, w.decided,
      w.applied⟩ := by
  have he := hl.extends (fun _ _ h => h) (fun _ h => h)
  have hold := (hi.servers p).extend he
  refine hi.move hl (fun _ _ h => h) (fun _ h => h) ?_ (Nat.le_refl _) (fun _ => hid) hi.decided
  exact ⟨hme.trans hold.me, fun y hy => hold.pending y (hpending y hy),
    fun command index hm => hold.channel command index (hchannel _ hm),
    fun index o result hr => hold.reader index o result (hreader index o result hr)⟩

variable {machine : StateMachine R V B St}

theorem restoreSnapshot_frame (rsm : RSM n R V B St) (data : Option (SnapshotData B)) :
    (rsm.restoreSnapshot machine data).me = rsm.me ∧
    (rsm.restoreSnapshot machine data).pending = rsm.pending ∧
    (rsm.restoreSnapshot machine data).applyCh = rsm.applyCh ∧
    (rsm.restoreSnapshot machine data).reader = rsm.reader ∧
    (rsm.restoreSnapshot machine data).nextId = rsm.nextId := by
  cases data <;> exact ⟨rfl, rfl, rfl, rfl, rfl⟩

theorem inv_readSnapshot (hi : Inv w) {data : Option (SnapshotData B)} {index : ℕ}
    {rest : List (ApplyMsg n R B)} (hr : (w.servers p).rsm.reader = .receiving)
    (hch : (w.servers p).rsm.applyCh = .snapshot data index :: rest)
    {r : RSM n R V B St × List (Submission n R V)}
    (hrsm : { (w.servers p).rsm with applyCh := rest }.readSnapshot machine w.calls data index = r) :
    Inv { w.setRSM p r.1 with calls := r.2, applied := w.record p r.1.reader } := by
  obtain ⟨f, hf⟩ : ∃ f, f = if (w.servers p).rsm.lastApplied < index then
      { (w.servers p).rsm with applyCh := rest }.restoreSnapshot machine data
    else { (w.servers p).rsm with applyCh := rest } := ⟨_, rfl⟩
  have hframe : f.me = (w.servers p).rsm.me ∧ f.pending = (w.servers p).rsm.pending ∧
      f.applyCh = rest ∧ f.reader = (w.servers p).rsm.reader ∧
      f.nextId = (w.servers p).rsm.nextId := by
    rw [hf]
    split_ifs
    · exact restoreSnapshot_frame _ _
    · exact ⟨rfl, rfl, rfl, rfl, rfl⟩
  obtain ⟨hme, hpending, happly, hreader, hid⟩ := hframe
  have heq : { (w.servers p).rsm with applyCh := rest }.readSnapshot machine w.calls data index =
      ({ f with pending := f.pending.filter (fun x => decide (f.lastApplied < x.1)) },
        wake w.calls (f.pending.filter (fun x => decide (x.1 ≤ f.lastApplied)))) := by
    rw [hf]
    rfl
  rw [heq] at hrsm
  subst hrsm
  have hrec : w.record p f.reader = w.applied := by
    rw [hreader, hr]
    rfl
  dsimp only
  rw [hrec]
  refine hi.quiet _ (updated_wake _ _) hme ?_ ?_ ?_ (Nat.le_of_eq hid.symm)
  · intro y hy
    rw [← hpending]
    exact List.mem_of_mem_filter hy
  · intro m hm
    rw [hch]
    change m ∈ f.applyCh at hm
    rw [happly] at hm
    exact List.mem_cons_of_mem _ hm
  · intro i o result hc
    change f.reader = _ at hc
    rwa [hreader] at hc

theorem inv_readCommand (hi : Inv w) {command : Command n R} {index : ℕ}
    {rest : List (ApplyMsg n R B)} (hr : (w.servers p).rsm.reader = .receiving)
    (hch : (w.servers p).rsm.applyCh = .command command index :: rest) {rsm : RSM n R V B St}
    (hrsm : { (w.servers p).rsm with applyCh := rest }.readCommand machine command index = rsm) :
    Inv { w.setRSM p rsm with applied := w.record p rsm.reader } := by
  subst hrsm
  have hsub : ∀ m ∈ rest, m ∈ (w.servers p).rsm.applyCh := by
    intro m hm
    rw [hch]
    exact List.mem_cons_of_mem _ hm
  have skip : Inv { w.setRSM p { (w.servers p).rsm with applyCh := rest } with
      applied := w.record p (w.servers p).rsm.reader } := by
    rw [hr]
    exact hi.quiet _ (Updated.refl _ _) rfl (fun _ hy => hy) hsub (fun _ _ _ h => h) (Nat.le_refl _)
  cases command with
  | foreign => exact skip
  | op o =>
    unfold RSM.readCommand
    by_cases hle : index ≤ (w.servers p).rsm.lastApplied
    · dsimp only
      rw [if_pos hle]
      exact skip
    · dsimp only
      rw [if_neg hle]
      have ha : ∀ x : Applied n R V, ∀ a ∈ w.applied, a ∈ x :: w.applied :=
        fun _ _ h => List.mem_cons_of_mem _ h
      have hdec : w.decided index = some (.op o) := by
        apply (hi.servers p).channel
        rw [hch]
        exact List.mem_cons_self
      have hold := hi.servers p
      refine hi.move (Updated.refl _ _) (fun _ _ h => h) (ha _) ?_ (Nat.le_refl _)
        (fun _ => Nat.le_refl _) hi.decided
      refine ⟨hold.me, hold.pending, fun c i hm => hold.channel c i (hsub _ hm), ?_⟩
      intro i o' result h
      cases h
      exact ⟨hdec, List.mem_cons_self⟩

theorem inv_read (hi : Inv w) {r : RSM n R V B St × List (Submission n R V)}
    (h : (w.servers p).rsm.read machine w.calls = some r) :
    Inv { w.setRSM p r.1 with calls := r.2, applied := w.record p r.1.reader } := by
  unfold RSM.read at h
  split at h
  · rename_i data index rest hr hch
    cases h
    exact inv_readSnapshot hi hr hch rfl
  · rename_i command index rest hr hch
    cases h
    exact inv_readCommand hi hr hch rfl
  · cases h

/-- The waiter that is told `OK` belongs to the call that created the delivered `Op`. -/
theorem Inv.same_call (hi : Inv w) {k index : ℕ} {c : Submission n R V} {o : Op n R}
    (hk : w.calls[k]? = some c) (hserver : c.server = p) (hindex : c.index = index)
    (hdec : w.decided index = some (.op o)) (hid : c.op.id = o.id) (hme : o.me = p) :
    c.op = o := by
  obtain ⟨c', hc', hi', rfl⟩ := hi.decided index o hdec
  obtain ⟨j, hj⟩ := List.mem_iff_getElem?.mp hc'
  have hserver' : c'.server = p := (hi.calls j c' hj).me.symm.trans hme
  have hjk := hi.distinct k j c c' hk hj (hserver.trans hserver'.symm) (hindex.trans hi'.symm) hid
  subst hjk
  rw [hk] at hj
  cases hj
  rfl

theorem inv_finish (hi : Inv w) {r : RSM n R V B St × List (Submission n R V)}
    (h : (w.servers p).rsm.finish w.calls = some r) :
    Inv { w.setRSM p r.1 with calls := r.2 } := by
  have hserver := hi.servers p
  unfold RSM.finish at h
  split at h
  · rename_i index o result hr
    obtain ⟨hdec, happ⟩ := hserver.reader index o result hr
    dsimp only at h
    cases hlook : (w.servers p).rsm.pending.lookup index with
    | none =>
      rw [hlook] at h
      cases h
      exact hi.quiet _ (Updated.refl _ _) rfl (fun _ hy => hy) (fun _ hm => hm)
        (fun _ _ _ hc => by cases hc) (Nat.le_refl _)
    | some k =>
      rw [hlook] at h
      obtain ⟨c, hc, h⟩ := Option.bind_eq_some_iff.mp h
      cases h
      have hmem : (index, k) ∈ (w.servers p).rsm.pending := by
        obtain ⟨front, back, heq, _⟩ := List.lookup_eq_some_iff.mp hlook
        rw [heq]
        exact List.mem_append_right _ List.mem_cons_self
      obtain ⟨c', hc', hcs, hce, hci⟩ := hserver.pending (index, k) hmem
      rw [hc] at hc'
      cases hc'
      refine hi.quiet _ (updated_post ?_) rfl (fun _ hy => List.mem_of_mem_filter hy)
        (fun _ hm => hm) (fun _ _ _ hc => by cases hc) (Nat.le_refl _)
      intro d val hd hres
      rw [hc] at hd
      cases hd
      split_ifs at hres with hmatch
      · cases hres
        have hop := hi.same_call hc hcs hci hdec hmatch.1 (hmatch.2.trans hserver.me)
        refine ⟨by rw [hci, hop]; exact hdec, result, rfl, ?_⟩
        rw [hcs, hce, hci, hop]
        exact happ
      · cases hres
  · cases h

theorem inv_stop (hi : Inv w) {r : RSM n R V B St × List (Submission n R V)}
    (h : (w.servers p).rsm.stop w.calls = some r) :
    Inv { w.setRSM p r.1 with calls := r.2 } := by
  unfold RSM.stop at h
  split at h
  · cases h
    exact hi.quiet _ (updated_wake _ _) rfl (fun _ hy => by cases hy) (fun _ hm => hm)
      (fun _ _ _ hc => by cases hc) (Nat.le_refl _)
  · cases h

theorem inv_timeout (hi : Inv w) {k curTerm : ℕ} {isLeader : Bool} {c : Submission n R V}
    (hk : w.calls[k]? = some c) {r : RSM n R V B St × Submission n R V}
    (h : (w.servers c.server).rsm.timeout k c curTerm isLeader = r) :
    Inv { w.setRSM c.server r.1 with calls := w.calls.set k r.2 } := by
  have gone : ∀ u : World n R V B St,
      Renewed u c { c with returned := some ⟨none, .errWrongLeader⟩ } := fun u =>
    ⟨⟨rfl, rfl, rfl, rfl⟩, fun _ h => .inl h, fun _ h => (by cases h)⟩
  subst h
  unfold RSM.timeout
  split_ifs
  · exact hi.quiet _ (Updated.set hk (gone _)) rfl (fun _ hy => hy) (fun _ hm => hm)
      (fun _ _ _ hc => hc) (Nat.le_refl _)
  · exact hi.quiet _ (Updated.set hk (gone _)) rfl (fun _ hy => List.mem_of_mem_filter hy)
      (fun _ hm => hm) (fun _ _ _ hc => hc) (Nat.le_refl _)
  · exact hi.quiet _ (Updated.set hk (gone _)) rfl (fun _ hy => hy) (fun _ hm => hm)
      (fun _ _ _ hc => hc) (Nat.le_refl _)
  · exact hi.quiet _ (Updated.set hk (Renewed.refl _ c)) rfl (fun _ hy => hy) (fun _ hm => hm)
      (fun _ _ _ hc => hc) (Nat.le_refl _)

theorem inv_receive (hi : Inv w) {k : ℕ} {c : Submission n R V} {res : OpResult V}
    (hk : w.calls[k]? = some c) (hch : c.ch = some res) :
    Inv { w with calls := w.calls.set k { c with ch := none, returned := some res } } := by
  have hr : ∀ u : World n R V B St, Renewed u c { c with ch := none, returned := some res } := by
    intro u
    refine ⟨⟨rfl, rfl, rfl, rfl⟩, fun _ h => (by cases h), ?_⟩
    intro val h
    cases h
    exact .inr (.inl hch)
  have hq := hi.quiet (p := c.server) (w.servers c.server).rsm (Updated.set hk (hr _)) rfl
    (fun _ hy => hy) (fun _ hm => hm) (fun _ _ _ hc => hc) (Nat.le_refl _)
  rwa [Function.update_eq_self] at hq

theorem inv_channel (hi : Inv w) {m : ApplyMsg n R B} {decided : ℕ → Option (Command n R)}
    (hd : ∀ index command, w.decided index = some command → decided index = some command)
    (hm : ∀ command index, m = .command command index → decided index = some command)
    (hdec : ∀ index o, decided index = some (.op o) → w.Started (.op o) index) :
    Inv { w.setRSM p { (w.servers p).rsm with
        applyCh := (w.servers p).rsm.applyCh ++ [m] } with decided := decided } := by
  have hold := hi.servers p
  refine hi.move (Updated.refl _ _) hd (fun _ h => h) ?_ (Nat.le_refl _) (fun _ => Nat.le_refl _) hdec
  refine ⟨hold.me, hold.pending, ?_, ?_⟩
  · intro command index hmem
    rcases List.mem_append.mp hmem with hmem | hmem
    · exact hd _ _ (hold.channel command index hmem)
    · exact hm command index (List.mem_singleton.mp hmem).symm
  · intro index o result hr
    obtain ⟨h, h'⟩ := hold.reader index o result hr
    exact ⟨hd _ _ h, h'⟩

theorem makeRSM_frame (machine : StateMachine R V B St) (me : Fin n) (snapshot : Option (SnapshotData B)) :
    (RSM.makeRSM machine me snapshot : RSM n R V B St).me = me ∧
    (RSM.makeRSM machine me snapshot : RSM n R V B St).pending = [] ∧
    (RSM.makeRSM machine me snapshot : RSM n R V B St).applyCh = [] ∧
    (RSM.makeRSM machine me snapshot : RSM n R V B St).reader = .receiving := by
  cases snapshot <;> exact ⟨rfl, rfl, rfl, rfl⟩

theorem serverInv_make (w : World n R V B St) (p : Fin n) (epoch : ℕ)
    (snapshot : Option (SnapshotData B)) :
    ServerInv w p ⟨RSM.makeRSM machine p snapshot, epoch, snapshot⟩ := by
  obtain ⟨hme, hpending, hch, hr⟩ := makeRSM_frame machine p snapshot
  refine ⟨hme, ?_, ?_, ?_⟩
  · intro y hy
    rw [hpending] at hy
    cases hy
  · intro command index hm
    rw [hch] at hm
    cases hm
  · intro index o result h
    rw [hr] at h
    cases h

theorem inv_restart (hi : Inv w) :
    Inv (w.setServer p ⟨RSM.makeRSM machine p (w.servers p).persisted, (w.servers p).epoch + 1,
      (w.servers p).persisted⟩) := by
  refine hi.move (Updated.refl _ _) (fun _ _ h => h) (fun _ h => h) (serverInv_make _ p _ _)
    (Nat.le_succ _) ?_ hi.decided
  intro h
  exact absurd h (Nat.succ_ne_self _)

/-- A `Submit` that is given an index: its id is new for that index. -/
theorem inv_submit_started (hi : Inv w) {index term : ℕ} {req : R}
    (hfresh : ∀ c ∈ w.calls, c.server = p → c.epoch < (w.servers p).epoch → c.index = index →
      c.op.id ≠ (w.servers p).rsm.nextId + 1) :
    Inv { w.setRSM p { (w.servers p).rsm with
        nextId := (w.servers p).rsm.nextId + 1
        pending := (index, w.calls.length) ::
          (w.servers p).rsm.pending.filter (fun x => decide (x.1 ≠ index)) } with
      calls := w.calls ++ [⟨(w.servers p).rsm.me, (w.servers p).epoch,
        ⟨(w.servers p).rsm.me, (w.servers p).rsm.nextId + 1, req⟩, index, term, none, none⟩] } := by
  obtain ⟨new, hnew⟩ : ∃ c : Submission n R V, c = ⟨(w.servers p).rsm.me, (w.servers p).epoch,
    ⟨(w.servers p).rsm.me, (w.servers p).rsm.nextId + 1, req⟩, index, term, none, none⟩ := ⟨_, rfl⟩
  obtain ⟨rsm, hrsm⟩ : ∃ rsm, rsm = { (w.servers p).rsm with
      nextId := (w.servers p).rsm.nextId + 1
      pending := (index, w.calls.length) ::
        (w.servers p).rsm.pending.filter (fun x => decide (x.1 ≠ index)) } := ⟨_, rfl⟩
  rw [← hnew, ← hrsm]
  have hserver : new.server = p := by
    rw [hnew]
    exact (hi.servers p).me
  have hindex : new.index = index := by rw [hnew]
  have hid : new.op.id = (w.servers p).rsm.nextId + 1 := by rw [hnew]
  have hcalls : ∀ (k : ℕ) c, (w.calls ++ [new])[k]? = some c →
      w.calls[k]? = some c ∨ (k = w.calls.length ∧ c = new) := by
    intro k c hk
    rcases Nat.lt_trichotomy k w.calls.length with hlt | rfl | hgt
    · rw [List.getElem?_append_left hlt] at hk
      exact .inl hk
    · rw [List.getElem?_concat_length] at hk
      exact .inr ⟨rfl, (Option.some.inj hk).symm⟩
    · rw [List.getElem?_eq_none (by rw [List.length_append, List.length_singleton]; omega)] at hk
      cases hk
  have hkeep : ∀ (k : ℕ) c, w.calls[k]? = some c → (w.calls ++ [new])[k]? = some c := by
    intro k c hk
    rw [List.getElem?_append_left (List.getElem?_eq_some_iff.mp hk).choose]
    exact hk
  have he : Extends w { w.setRSM p rsm with calls := w.calls ++ [new] } :=
    ⟨fun _ _ h => h, fun _ h => h, fun k c hk => ⟨c, hkeep k c hk, Same.refl c⟩⟩
  have hlater : Later w { w.setRSM p rsm with calls := w.calls ++ [new] } := by
    refine later_update rfl (Nat.le_refl _) fun _ => ?_
    rw [hrsm]
    exact Nat.le_succ _
  -- no call before this one has its server, index and id
  have hnone : ∀ (k : ℕ) c, w.calls[k]? = some c → c.server = p → c.index = index →
      c.op.id ≠ (w.servers p).rsm.nextId + 1 := by
    intro k c hk hs hidx
    have hcall := hi.calls k c hk
    have hle := hcall.epoch
    rw [hs] at hle
    rcases Nat.lt_or_eq_of_le hle with hlt | heq
    · exact hfresh c (List.mem_of_getElem? hk) hs hlt hidx
    · have hid := hcall.id (by rw [hs]; exact heq)
      rw [hs] at hid
      omega
  refine ⟨?_, ?_, ?_, fun i o h => Started.extend he (hi.decided i o h)⟩
  · intro k c hk
    rcases hcalls k c hk with hk | ⟨_, rfl⟩
    · exact (hi.calls k c hk).renew he hlater (Renewed.refl _ c)
    · refine ⟨by rw [hnew], ?_, ?_, ?_, ?_⟩
      · rw [hserver, hnew]
        simp [World.setRSM, World.setServer]
      · rw [hserver, hid]
        simp [World.setRSM, World.setServer, hrsm]
      · intro val hval
        rw [hnew] at hval
        cases hval
      · intro val hval
        rw [hnew] at hval
        cases hval
  · intro j k c c' hj hk hs hx hop
    rcases hcalls j c hj with hj' | ⟨rfl, rfl⟩ <;> rcases hcalls k c' hk with hk' | ⟨rfl, rfl⟩
    · exact hi.distinct j k c c' hj' hk' hs hx hop
    · exact absurd (hop.trans hid) (hnone j c hj' (hs.trans hserver) (hx.trans hindex))
    · exact absurd (hop.symm.trans hid)
        (hnone k c' hk' (hs.symm.trans hserver) (hx.symm.trans hindex))
    · rfl
  · intro q
    have hq := (hi.servers q).extend he
    by_cases hqp : q = p
    · subst hqp
      simp only [World.setRSM, World.setServer, Function.update_self]
      rw [hrsm]
      refine ⟨hq.me, ?_, hq.channel, hq.reader⟩
      intro y hy
      rcases List.mem_cons.mp hy with rfl | hy
      · exact ⟨new, List.getElem?_concat_length, hserver, by rw [hnew], hindex⟩
      · exact hq.pending y (List.mem_of_mem_filter hy)
    · simp only [World.setRSM, World.setServer, Function.update_of_ne hqp]
      exact hq

theorem inv_submit (hi : Inv w) {req : R} {index term : ℕ} {isLeader : Bool}
    (hfresh : Fresh w (.submit p req index term isLeader : Label n R B))
    {r : RSM n R V B St × Option (Submission n R V)}
    (h : (w.servers p).rsm.submit (w.servers p).epoch w.calls.length req index term isLeader = r) :
    Inv { w.setRSM p r.1 with calls := w.calls ++ r.2.toList } := by
  subst h
  unfold RSM.submit
  split_ifs with hdead hleader
  · rw [Option.toList_none, List.append_nil]
    exact hi.quiet _ (Updated.refl _ _) rfl (fun _ hy => hy) (fun _ hm => hm) (fun _ _ _ h => h)
      (Nat.le_refl _)
  · subst hleader
    exact inv_submit_started hi hfresh
  · rw [Option.toList_none, List.append_nil]
    exact hi.quiet _ (Updated.refl _ _) rfl (fun _ hy => hy) (fun _ hm => hm) (fun _ _ _ h => h)
      (Nat.le_succ _)

end steps

section runs
variable {machine : StateMachine R V B St} {maxraftstate : ℤ}

theorem inv_initial : Inv (initial machine : World n R V B St) := by
  refine ⟨?_, ?_, fun p => serverInv_make _ p 0 none, ?_⟩
  · intro k c hk
    cases hk
  · intro j k c c' hj
    cases hj
  · intro index o h
    cases h

variable [DecidableEq R]

theorem inv_exec (hi : Inv w) {l : Label n R B} (hfresh : Fresh w l)
    (h : w.exec machine maxraftstate l = some u) : Inv u := by
  cases l with
  | submit p req index term isLeader =>
    cases h
    exact inv_submit hi hfresh rfl
  | receive k =>
    obtain ⟨c, hc, h⟩ := Option.bind_eq_some_iff.mp h
    obtain ⟨res, hres, h⟩ := Option.bind_eq_some_iff.mp h
    split_ifs at h
    cases h
    exact inv_receive hi hc hres
  | timeout k curTerm isLeader =>
    obtain ⟨c, hc, h⟩ := Option.bind_eq_some_iff.mp h
    split_ifs at h
    cases h
    exact inv_timeout hi hc rfl
  | startForeign index =>
    cases h
    exact { hi with
      calls := fun k c hk => { hi.calls k c hk with }
      servers := fun p => { hi.servers p with } }
  | deliver p command index =>
    dsimp only [World.exec] at h
    split_ifs at h with hok
    cases h
    refine inv_channel hi ?_ ?_ ?_
    · intro i c hic
      by_cases hi' : i = index
      · subst hi'
        rw [Function.update_self]
        rcases hok.2 with hn | hn <;> rw [hn] at hic
        · cases hic
        · exact hic
      · rw [Function.update_of_ne hi']
        exact hic
    · intro c i hm
      cases hm
      rw [Function.update_self]
    · intro i o ho
      by_cases hi' : i = index
      · subst hi'
        rw [Function.update_self] at ho
        cases ho
        exact hok.1
      · rw [Function.update_of_ne hi'] at ho
        exact hi.decided i o ho
  | deliverSnapshot p data index =>
    cases h
    exact inv_channel hi (fun _ _ h => h) (fun _ _ h => by cases h) hi.decided
  | install p data =>
    cases h
    exact hi.move (Updated.refl _ _) (fun _ _ h => h) (fun _ h => h) { hi.servers p with }
      (Nat.le_refl _) (fun _ => Nat.le_refl _) hi.decided
  | read p =>
    obtain ⟨r, hr, h⟩ := Option.bind_eq_some_iff.mp h
    cases h
    exact inv_read hi hr
  | finish p =>
    obtain ⟨r, hr, h⟩ := Option.bind_eq_some_iff.mp h
    cases h
    exact inv_finish hi hr
  | maybeSnapshot p persistBytes =>
    dsimp only [World.exec] at h
    split at h
    · cases h
      refine hi.move (Updated.refl _ _) (fun _ _ h => h) (fun _ h => h) ?_ (Nat.le_refl _)
        (fun _ => Nat.le_refl _) hi.decided
      exact { hi.servers p with reader := fun _ _ _ hr => by cases hr }
    · cases h
  | stop p =>
    obtain ⟨r, hr, h⟩ := Option.bind_eq_some_iff.mp h
    cases h
    exact inv_stop hi hr
  | restart p =>
    cases h
    exact inv_restart hi

/-- Every `Submit` that has returned `OK` returned what `DoOp` gave for its own `Op`, and no
    other call has passed that `Op` to a `Start` that returned the same index. -/
def RepliesSound (w : World n R V B St) : Prop :=
  ∀ (k : ℕ) (c : Submission n R V) (val : Option V), w.calls[k]? = some c →
    c.returned = some ⟨val, .ok⟩ → Answers w c val ∧
      ∀ (j : ℕ) (c' : Submission n R V), w.calls[j]? = some c' → c'.index = c.index →
        c'.op = c.op → j = k

theorem replies_sound {tr : List (Transition (World n R V B St) (Label n R B))}
    (run : Run ((cluster n machine maxraftstate).guarded Fresh) tr w) : RepliesSound w := by
  have hi : Inv w := by
    refine run.invariant ?_ ?_
    · rintro _ rfl
      exact inv_initial
    · exact fun _ _ _ hi h => inv_exec hi h.2 h.1
  intro k c val hk hret
  refine ⟨(hi.calls k c hk).returned val hret, ?_⟩
  intro j c' hj hindex hop
  refine hi.distinct j k c' c hj hk ?_ hindex (by rw [hop])
  rw [← (hi.calls j c' hj).me, ← (hi.calls k c hk).me, hop]

instance (w : World n R V B St) (l : Label n R B) : Decidable (Fresh w l) :=
  match l with
  | .submit p _ index _ true => inferInstanceAs (Decidable (∀ c ∈ w.calls, c.server = p →
      c.epoch < (w.servers p).epoch → c.index = index → c.op.id ≠ (w.servers p).rsm.nextId + 1))
  | .submit _ _ _ _ false | .receive _ | .timeout _ _ _ | .startForeign _ | .deliver _ _ _
  | .deliverSnapshot _ _ _ | .install _ _ | .read _ | .finish _ | .maybeSnapshot _ _ | .stop _
  | .restart _ => isTrue trivial

end runs

def echo : StateMachine ℕ ℕ Unit Unit := ⟨(), fun _ req => (req, ()), fun _ => (), fun _ => ()⟩

/-- A server submits 10, restarts, submits 20 with the same id but for a later index and applies
    both. -/
theorem replies_sound_echo : ∃ r, replay
      (fun w l => if Fresh w l then World.exec echo (-1) w l else none) (initial echo) []
      [.submit (0 : Fin 1) 10 1 1 true, .deliver 0 (.op ⟨0, 1, 10⟩) 1, .read 0, .finish 0,
        .receive 0, .restart 0, .submit 0 20 2 2 true, .deliver 0 (.op ⟨0, 1, 10⟩) 1, .read 0,
        .finish 0, .maybeSnapshot 0 0, .deliver 0 (.op ⟨0, 1, 20⟩) 2, .read 0, .finish 0,
        .receive 1] = some r ∧
    r.2.calls.map (fun c => (c.epoch, c.op.id, c.returned)) =
      [(0, 1, some ⟨some 10, .ok⟩), (1, 1, some ⟨some 20, .ok⟩)] ∧ RepliesSound r.2 := by
  have hsome : (replay (fun w l => if Fresh w l then World.exec echo (-1) w l else none)
      (initial echo) [] [.submit (0 : Fin 1) 10 1 1 true, .deliver 0 (.op ⟨0, 1, 10⟩) 1, .read 0,
        .finish 0, .receive 0, .restart 0, .submit 0 20 2 2 true, .deliver 0 (.op ⟨0, 1, 10⟩) 1,
        .read 0, .finish 0, .maybeSnapshot 0 0, .deliver 0 (.op ⟨0, 1, 20⟩) 2, .read 0, .finish 0,
        .receive 1]).map (fun r => r.2.calls.map (fun c => (c.epoch, c.op.id, c.returned))) =
      some [(0, 1, some ⟨some 10, .ok⟩), (1, 1, some ⟨some 20, .ok⟩)] := by decide +kernel
  obtain ⟨r, hr, hret⟩ := Option.map_eq_some_iff.mp hsome
  have hrun : Run ((cluster 1 echo (-1)).guarded Fresh) r.1 r.2 := by
    refine Run.replay ?_ _ (.start rfl) hr
    intro w l u h
    split_ifs at h with hfresh
    exact ⟨h, hfresh⟩
  exact ⟨r, hr, hret, replies_sound hrun⟩

/-- A server submits 10 and gets index 1 for id 1. It restarts, submits 20 and gets index 1 for
    id 1 again. Raft delivers the first operation, and the second call returns its result. -/
theorem reply_of_earlier_incarnation : ∃ r, replay (World.exec echo (-1)) (initial echo) []
      [.submit (0 : Fin 1) 10 1 1 true, .restart 0, .submit 0 20 1 2 true,
        .deliver 0 (.op ⟨0, 1, 10⟩) 1, .read 0, .finish 0, .receive 1] = some r ∧
    Run (cluster 1 echo (-1)) r.1 r.2 ∧
    (∃ c ∈ r.2.calls, c.op.req = 20 ∧ c.returned = some ⟨some 10, .ok⟩) ∧ ¬ RepliesSound r.2 := by
  have hsome : (replay (World.exec echo (-1)) (initial echo) []
      [.submit (0 : Fin 1) 10 1 1 true, .restart 0, .submit 0 20 1 2 true,
        .deliver 0 (.op ⟨0, 1, 10⟩) 1, .read 0, .finish 0, .receive 1]).map (fun r => decide
        ((∃ c ∈ r.2.calls[1]?, c.op = ⟨0, 1, 20⟩ ∧ c.returned = some ⟨some 10, .ok⟩ ∧ c.index = 1) ∧
          r.2.decided 1 = some (.op ⟨0, 1, 10⟩))) = some true := by decide +kernel
  obtain ⟨r, hr, hd⟩ := Option.map_eq_some_iff.mp hsome
  obtain ⟨⟨c, hc, hop, hret, hindex⟩, hdec⟩ := of_decide_eq_true hd
  refine ⟨r, hr, Run.replay (fun _ _ _ h => h) _ (.start rfl) hr,
    ⟨c, List.mem_of_getElem? hc, by rw [hop], hret⟩, ?_⟩
  intro hsound
  obtain ⟨⟨hown, _⟩, _⟩ := hsound 1 c (some 10) hc hret
  rw [hindex, hop, hdec] at hown
  exact absurd hown (by decide)

end DistributedLabs.RsmReplies
