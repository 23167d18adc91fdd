import DistributedLabs.Runs
import Mathlib.Data.List.Nodup
import Mathlib.Logic.Function.Basic

set_option autoImplicit false

/-!
# The simulated network

`Network` and `ClientEnd` of `labrpc/labrpc.go`. Every `Call` has a goroutine that runs
`processReq` and, once the request reaches a server, another one that runs the handler;
the steps of all of them and of the administrator of the network interleave freely. The
network has no clock: a delay is a step that is taken late, so `longDelays` and
`longReordering`, which only choose delays, are left out.
-/
namespace DistributedLabs.Labrpc
open Runs

structure ReplyMsg (R : Type) where
  ok : Bool
  reply : Option R
deriving DecidableEq

def noReply {R : Type} : ReplyMsg R := ⟨false, none⟩

/-- The network, with ends named by `E`, servers named by `N` and pointers `P` to servers. -/
structure Network (E N P : Type) where
  reliable : Bool
  ends : E → Bool
  enabled : E → Bool
  servers : N → Option P
  connections : E → Option N
  done : Bool

section network
variable {E N P : Type}

def makeNetwork : Network E N P where
  reliable := true
  ends _ := false
  enabled _ := false
  servers _ := none
  connections _ := none
  done := false

/-- Closing a closed channel panics. -/
def Network.cleanup (rn : Network E N P) : Option (Network E N P) :=
  if rn.done then none else some { rn with done := true }

def Network.setReliable (rn : Network E N P) (yes : Bool) : Network E N P :=
  { rn with reliable := yes }

def Network.readEndnameInfo (rn : Network E N P) (endname : E) :
    Bool × Option N × Option P × Bool :=
  let servername := rn.connections endname
  (rn.enabled endname, servername, servername.bind rn.servers, rn.reliable)

def Network.isServerDead [DecidableEq P] (rn : Network E N P) (endname : E) (servername : N)
    (server : P) : Bool :=
  rn.enabled endname = false ∨ rn.servers servername ≠ some server

theorem isServerDead_eq_false [DecidableEq P] {rn : Network E N P} {endname : E} {servername : N}
    {server : P} :
    rn.isServerDead endname servername server = false ↔
      rn.enabled endname = true ∧ rn.servers servername = some server := by
  simp [Network.isServerDead]

def Network.makeEnd [DecidableEq E] (rn : Network E N P) (endname : E) : Option (Network E N P) :=
  -- `log.Fatalf`: the end exists already
  if rn.ends endname then none
  else some { rn with
    ends := Function.update rn.ends endname true
    enabled := Function.update rn.enabled endname false
    connections := Function.update rn.connections endname none }

def Network.deleteEnd [DecidableEq E] (rn : Network E N P) (endname : E) : Option (Network E N P) :=
  if rn.ends endname then
    some { rn with
      ends := Function.update rn.ends endname false
      enabled := Function.update rn.enabled endname false
      connections := Function.update rn.connections endname none }
  else none

def Network.addServer [DecidableEq N] (rn : Network E N P) (servername : N) (rs : P) :
    Network E N P :=
  { rn with servers := Function.update rn.servers servername (some rs) }

def Network.deleteServer [DecidableEq N] (rn : Network E N P) (servername : N) : Network E N P :=
  { rn with servers := Function.update rn.servers servername none }

def Network.connect [DecidableEq E] (rn : Network E N P) (endname : E) (servername : N) :
    Network E N P :=
  { rn with connections := Function.update rn.connections endname (some servername) }

def Network.enable [DecidableEq E] (rn : Network E N P) (endname : E) (enabled : Bool) :
    Network E N P :=
  { rn with enabled := Function.update rn.enabled endname enabled }

end network

inductive Admin (E N P : Type) where
  | makeEnd (endname : E)
  | deleteEnd (endname : E)
  | addServer (servername : N) (rs : P)
  | deleteServer (servername : N)
  | connect (endname : E) (servername : N)
  | enable (endname : E) (enabled : Bool)
  | reliable (yes : Bool)
  | cleanup
deriving DecidableEq

structure Link (N P : Type) where
  servername : N
  server : P
  reliable : Bool
deriving DecidableEq

inductive Handler (R : Type) where
  | spawned
  | running
  -- the result is in `ech`
  | returned (msg : ReplyMsg R)
deriving DecidableEq

/-- Where `Call` and `processReq` are: before the request is taken from `endCh`; before
    `readEndnameInfo`; before the request is dispatched or dropped; in the loop that waits
    for the handler; behind it, with the reply if there is one; sending on `replyCh`; `Call`
    has returned. -/
inductive Stage (R : Type) where
  | sending
  | taken
  | connected
  | waiting
  | finishing (reply : Option (ReplyMsg R))
  | replying (msg : ReplyMsg R)
  | returned (msg : ReplyMsg R)
deriving DecidableEq

structure Request (E N P A R : Type) where
  endname : E
  args : A
  stage : Stage R
  link : Option (Link N P)
  handler : Option (Handler R)

inductive Event (R : Type) where
  | abort
  | take
  | read
  | drop
  | dispatch
  | start
  | finish (msg : ReplyMsg R)
  | collect
  | timeout
  | reply
  | dropReply
  | deliver
deriving DecidableEq

structure World (E N P A R : Type) where
  net : Network E N P
  reqs : List (Request E N P A R)

inductive Label (E N P A R : Type) where
  | admin (op : Admin E N P)
  | call (endname : E) (args : A)
  | request (k : ℕ) (ev : Event R)
deriving DecidableEq

variable {E N P A R : Type}

abbrev Trace (E N P A R : Type) := List (Transition (World E N P A R) (Label E N P A R))

def startsHandler (k : ℕ) (t : Transition (World E N P A R) (Label E N P A R)) : Bool :=
  match t.label with
  | .request j .start => j = k
  | _ => false

def starts (tr : Trace E N P A R) (k : ℕ) : ℕ := tr.countP (startsHandler k)

def addsServer (t : Transition (World E N P A R) (Label E N P A R)) : Option P :=
  match t.label with
  | .admin (.addServer _ rs) => some rs
  | _ => none

def added (tr : Trace E N P A R) : List P := tr.filterMap addsServer

def Request.started (r : Request E N P A R) : Bool :=
  match r.handler with
  | some .running => true
  | some (.returned _) => true
  | _ => false

def Request.unfinished (r : Request E N P A R) : Prop :=
  r.handler = some .spawned ∨ r.handler = some .running

def Request.answered (r : Request E N P A R) (msg : ReplyMsg R) : Prop :=
  r.stage = .replying msg ∨ r.stage = .returned msg

structure Shape (r : Request E N P A R) : Prop where
  early : r.stage = .sending ∨ r.stage = .taken → r.handler = none ∧ r.link = none
  connected : r.stage = .connected → r.handler = none ∧ r.link.isSome
  waiting : r.stage = .waiting → r.handler.isSome ∧ r.link.isSome
  finishing : ∀ reply, r.stage = .finishing reply →
    r.link.isSome ∧ ∀ msg, reply = some msg → r.handler = some (.returned msg)

def Network.administer [DecidableEq E] [DecidableEq N] (rn : Network E N P) :
    Admin E N P → Option (Network E N P)
  | .makeEnd endname => rn.makeEnd endname
  | .deleteEnd endname => rn.deleteEnd endname
  | .addServer servername rs => some (rn.addServer servername rs)
  | .deleteServer servername => some (rn.deleteServer servername)
  | .connect endname servername => some (rn.connect endname servername)
  | .enable endname enabled => some (rn.enable endname enabled)
  | .reliable yes => some (rn.setReliable yes)
  | .cleanup => rn.cleanup

variable [DecidableEq P]

def Request.step (r : Request E N P A R) (rn : Network E N P) :
    Event R → Option (Request E N P A R)
  | .abort =>
    match r.stage with
    | .sending => if rn.done then some { r with stage := .returned noReply } else none
    | _ => none
  | .take =>
    match r.stage with
    | .sending => some { r with stage := .taken }
    | _ => none
  | .read =>
    match r.stage with
    | .taken =>
      match rn.readEndnameInfo r.endname with
      | (true, some servername, some server, reliable) =>
        some { r with stage := .connected, link := some ⟨servername, server, reliable⟩ }
      | _ => some { r with stage := .replying noReply }
    | _ => none
  | .drop =>
    match r.stage, r.link with
    | .connected, some link =>
      if link.reliable then none else some { r with stage := .replying noReply }
    | _, _ => none
  | .dispatch =>
    match r.stage with
    | .connected => some { r with stage := .waiting, handler := some .spawned }
    | _ => none
  | .start =>
    match r.handler with
    | some .spawned => some { r with handler := some .running }
    | _ => none
  | .finish msg =>
    match r.handler with
    | some .running => some { r with handler := some (.returned msg) }
    | _ => none
  | .collect =>
    match r.stage, r.handler with
    | .waiting, some (.returned msg) => some { r with stage := .finishing (some msg) }
    | _, _ => none
  | .timeout =>
    -- a timeout that finds the server alive goes round the loop again
    match r.stage, r.link with
    | .waiting, some link =>
      if rn.isServerDead r.endname link.servername link.server then
        some { r with stage := .finishing none }
      else none
    | _, _ => none
  | .reply =>
    match r.stage, r.link with
    | .finishing none, some _ => some { r with stage := .replying noReply }
    | .finishing (some msg), some link =>
      if rn.isServerDead r.endname link.servername link.server then
        some { r with stage := .replying noReply }
      else some { r with stage := .replying msg }
    | _, _ => none
  | .dropReply =>
    match r.stage, r.link with
    | .finishing (some _), some link =>
      if rn.isServerDead r.endname link.servername link.server ∨ link.reliable then none
      else some { r with stage := .replying noReply }
    | _, _ => none
  | .deliver =>
    match r.stage with
    | .replying msg => some { r with stage := .returned msg }
    | _ => none

variable [DecidableEq E] [DecidableEq N]

def exec (w : World E N P A R) : Label E N P A R → Option (World E N P A R)
  | .admin op => (w.net.administer op).map fun net => { w with net }
  | .call endname args =>
    some { w with reqs := w.reqs ++ [⟨endname, args, .sending, none, none⟩] }
  | .request k ev =>
    (w.reqs[k]?.bind fun r => r.step w.net ev).map fun r => { w with reqs := w.reqs.set k r }

def labrpc (E N P A R : Type) [DecidableEq P] [DecidableEq E] [DecidableEq N] :
    Machine (World E N P A R) (Label E N P A R) where
  init w := w = ⟨makeNetwork, []⟩
  step w l v := exec w l = some v

section inversion
omit [DecidableEq E] [DecidableEq N]

inductive Moved (rn : Network E N P) (r : Request E N P A R) :
    Event R → Request E N P A R → Prop where
  | abort (hs : r.stage = .sending) (hd : rn.done = true) :
      Moved rn r .abort { r with stage := .returned noReply }
  | take (hs : r.stage = .sending) : Moved rn r .take { r with stage := .taken }
  | read (link : Link N P) (hs : r.stage = .taken) (he : rn.enabled r.endname = true)
      (hc : rn.connections r.endname = some link.servername)
      (hp : rn.servers link.servername = some link.server) (hr : rn.reliable = link.reliable) :
      Moved rn r .read { r with stage := .connected, link := some link }
  | unread (hs : r.stage = .taken) : Moved rn r .read { r with stage := .replying noReply }
  | drop (link : Link N P) (hs : r.stage = .connected) (hl : r.link = some link)
      (hr : link.reliable = false) : Moved rn r .drop { r with stage := .replying noReply }
  | dispatch (hs : r.stage = .connected) :
      Moved rn r .dispatch { r with stage := .waiting, handler := some .spawned }
  | start (hh : r.handler = some .spawned) :
      Moved rn r .start { r with handler := some .running }
  | finish (msg : ReplyMsg R) (hh : r.handler = some .running) :
      Moved rn r (.finish msg) { r with handler := some (.returned msg) }
  | collect (msg : ReplyMsg R) (hs : r.stage = .waiting) (hh : r.handler = some (.returned msg)) :
      Moved rn r .collect { r with stage := .finishing (some msg) }
  | timeout (link : Link N P) (hs : r.stage = .waiting) (hl : r.link = some link)
      (hd : rn.isServerDead r.endname link.servername link.server = true) :
      Moved rn r .timeout { r with stage := .finishing none }
  | fail (reply : Option (ReplyMsg R)) (hs : r.stage = .finishing reply) :
      Moved rn r .reply { r with stage := .replying noReply }
  | reply (msg : ReplyMsg R) (link : Link N P) (hs : r.stage = .finishing (some msg))
      (hl : r.link = some link)
      (hd : rn.isServerDead r.endname link.servername link.server = false) :
      Moved rn r .reply { r with stage := .replying msg }
  | dropReply (msg : ReplyMsg R) (link : Link N P) (hs : r.stage = .finishing (some msg))
      (hl : r.link = some link) (hr : link.reliable = false) :
      Moved rn r .dropReply { r with stage := .replying noReply }
  | deliver (msg : ReplyMsg R) (hs : r.stage = .replying msg) :
      Moved rn r .deliver { r with stage := .returned msg }

theorem step_moved {rn : Network E N P} {r q : Request E N P A R} {ev : Event R}
    (h : r.step rn ev = some q) : Moved rn r ev q := by
  cases ev with
  | abort =>
    simp only [Request.step] at h
    split at h <;> [split at h; skip] <;> cases h
    exact .abort ‹_› ‹_›
  | take =>
    simp only [Request.step] at h
    split at h <;> cases h
    exact .take ‹_›
  | read =>
    simp only [Request.step] at h
    split at h <;> [split at h; skip] <;> cases h
    · next hs _ servername server reliable info =>
      simp only [Network.readEndnameInfo, Prod.mk.injEq] at info
      obtain ⟨he, hc, hp, hr⟩ := info
      rw [hc] at hp
      exact .read ⟨servername, server, reliable⟩ hs he hc hp hr
    · exact .unread ‹_›
  | drop =>
    simp only [Request.step] at h
    split at h <;> [split at h; skip] <;> cases h
    exact .drop _ ‹_› ‹_› (Bool.eq_false_iff.mpr ‹_›)
  | dispatch =>
    simp only [Request.step] at h
    split at h <;> cases h
    exact .dispatch ‹_›
  | start =>
    simp only [Request.step] at h
    split at h <;> cases h
    exact .start ‹_›
  | finish msg =>
    simp only [Request.step] at h
    split at h <;> cases h
    exact .finish msg ‹_›
  | collect =>
    simp only [Request.step] at h
    split at h <;> cases h
    exact .collect _ ‹_› ‹_›
  | timeout =>
    simp only [Request.step] at h
    split at h <;> [split at h; skip] <;> cases h
    exact .timeout _ ‹_› ‹_› ‹_›
  | reply =>
    simp only [Request.step] at h
    split at h
    · cases h
      exact .fail none ‹_›
    · split at h <;> cases h
      · exact .fail _ ‹_›
      · exact .reply _ _ ‹_› ‹_› (Bool.eq_false_iff.mpr ‹_›)
    · cases h
  | dropReply =>
    simp only [Request.step] at h
    split at h <;> [split at h; skip] <;> cases h
    exact .dropReply _ _ ‹_› ‹_› (by simp_all)
  | deliver =>
    simp only [Request.step] at h
    split at h <;> cases h
    exact .deliver _ ‹_›

end inversion

inductive Stepped (w : World E N P A R) : Label E N P A R → World E N P A R → Prop where
  | admin (op : Admin E N P) (net : Network E N P) (h : w.net.administer op = some net) :
      Stepped w (.admin op) { w with net }
  | call (endname : E) (args : A) :
      Stepped w (.call endname args)
        { w with reqs := w.reqs ++ [⟨endname, args, .sending, none, none⟩] }
  | request (k : ℕ) (ev : Event R) (r q : Request E N P A R) (hk : w.reqs[k]? = some r)
      (hq : Moved w.net r ev q) : Stepped w (.request k ev) { w with reqs := w.reqs.set k q }

theorem exec_stepped {w v : World E N P A R} {l : Label E N P A R} (h : exec w l = some v) :
    Stepped w l v := by
  cases l with
  | admin op =>
    obtain ⟨net, hnet, rfl⟩ := Option.map_eq_some_iff.mp h
    exact .admin op net hnet
  | call endname args =>
    cases h
    exact .call endname args
  | request k ev =>
    obtain ⟨q, hq, rfl⟩ := Option.map_eq_some_iff.mp h
    obtain ⟨r, hr, hstep⟩ := Option.bind_eq_some_iff.mp hq
    exact .request k ev r q hr (step_moved hstep)

section history
omit [DecidableEq E] [DecidableEq N]

/-- `processReq` passed the reply on after it had found the server alive. -/
def Checked (tr : Trace E N P A R) (k : ℕ) (endname : E) (link : Link N P) (msg : ReplyMsg R) :
    Prop :=
  ∃ before t after q, tr = after ++ t :: before ∧ t.label = .request k .reply ∧
    t.pre.reqs[k]? = some q ∧ q.stage = .finishing (some msg) ∧ q.link = some link ∧
    t.pre.net.isServerDead endname link.servername link.server = false

def TimedOut (tr : Trace E N P A R) (k : ℕ) (endname : E) (link : Link N P) : Prop :=
  ∃ t ∈ tr, t.label = .request k .timeout ∧
    t.pre.net.isServerDead endname link.servername link.server = true

/-- What the past says about request `k` in its present state. -/
structure Record (tr : Trace E N P A R) (k : ℕ) (r : Request E N P A R) : Prop where
  starts : starts tr k = if r.started then 1 else 0
  finished : ∀ msg, r.handler = some (.returned msg) → ∃ t ∈ tr, t.label = .request k (.finish msg)
  known : ∀ link, r.link = some link → link.server ∈ added tr
  checked : ∀ msg, r.answered msg → msg.ok = true →
    ∃ link, r.link = some link ∧ Checked tr k r.endname link msg
  gaveUp : r.unfinished → r.stage ≠ .waiting →
    ∃ link, r.link = some link ∧ TimedOut tr k r.endname link

variable {tr : Trace E N P A R} {k : ℕ} {r q : Request E N P A R}
  {t : Transition (World E N P A R) (Label E N P A R)}

omit [DecidableEq P] in
theorem starts_cons : starts (t :: tr) k = starts tr k + if startsHandler k t then 1 else 0 := by
  rw [starts, List.countP_cons, starts]

omit [DecidableEq P] in
theorem added_mono {rs : P} (h : rs ∈ added tr) : rs ∈ added (t :: tr) := by
  rw [added, List.mem_filterMap] at h ⊢
  obtain ⟨x, hx, hrs⟩ := h
  exact ⟨x, List.mem_cons_of_mem _ hx, hrs⟩

theorem Checked.mono {endname : E} {link : Link N P} {msg : ReplyMsg R}
    (h : Checked tr k endname link msg) : Checked (t :: tr) k endname link msg := by
  obtain ⟨before, x, after, q, rfl, rest⟩ := h
  exact ⟨before, x, t :: after, q, rfl, rest⟩

theorem TimedOut.mono {endname : E} {link : Link N P} (h : TimedOut tr k endname link) :
    TimedOut (t :: tr) k endname link := by
  obtain ⟨x, hx, rest⟩ := h
  exact ⟨x, List.mem_cons_of_mem _ hx, rest⟩

theorem Shape.moved {rn : Network E N P} {ev : Event R} (h : Shape r) (hq : Moved rn r ev q) :
    Shape q := by
  obtain ⟨early, connected, waiting, finishing⟩ := h
  cases hq <;> constructor <;> simp_all

theorem Record.mono (h : Record tr k r) (ht : startsHandler k t = false) :
    Record (t :: tr) k r where
  starts := by simpa [starts_cons, ht] using h.starts
  finished msg hmsg := by
    obtain ⟨x, hx, hl⟩ := h.finished msg hmsg
    exact ⟨x, List.mem_cons_of_mem _ hx, hl⟩
  known link hl := added_mono (h.known link hl)
  checked msg ha hok := by
    obtain ⟨link, hl, hc⟩ := h.checked msg ha hok
    exact ⟨link, hl, hc.mono⟩
  gaveUp hh hs := by
    obtain ⟨link, hl, hc⟩ := h.gaveUp hh hs
    exact ⟨link, hl, hc.mono⟩

theorem record_new (endname : E) (args : A) (h : Labrpc.starts tr k = 0) :
    Record tr k (⟨endname, args, .sending, none, none⟩ : Request E N P A R) := by
  constructor <;> simp [h, Request.started, Request.answered, Request.unfinished]

theorem Record.setStage (h : Record tr k r) (s : Stage R)
    (checked : ∀ msg, s = .replying msg ∨ s = .returned msg → msg.ok = true →
      ∃ link, r.link = some link ∧ Checked tr k r.endname link msg)
    (gaveUp : r.unfinished → s ≠ .waiting →
      ∃ link, r.link = some link ∧ TimedOut tr k r.endname link) :
    Record tr k { r with stage := s } :=
  ⟨h.starts, h.finished, h.known, checked, gaveUp⟩

/-- The request ends without a reply, and its handler has not been given up just now. -/
theorem Record.lose (h : Record tr k r) (s : Stage R)
    (hs : s = .replying noReply ∨ s = .returned noReply)
    (hw : r.unfinished → r.stage ≠ .waiting) : Record tr k { r with stage := s } := by
  refine h.setStage s ?_ fun hh _ => h.gaveUp hh (hw hh)
  intro msg hmsg hok
  have hlost : msg = noReply := by
    rcases hs with rfl | rfl <;> simpa [eq_comm] using hmsg
  simp [hlost, noReply] at hok

omit [DecidableEq P] in
theorem not_unfinished (h : r.handler = none) : ¬ r.unfinished := by
  simp [Request.unfinished, h]

theorem Record.moved {w v : World E N P A R} {ev : Event R} (h : Record tr k r) (shape : Shape r)
    (hadd : ∀ n rs, w.net.servers n = some rs → rs ∈ added tr) (hk : w.reqs[k]? = some r)
    (hq : Moved w.net r ev q) : Record (⟨w, .request k ev, v⟩ :: tr) k q := by
  have hm : ev ≠ .start → Record (⟨w, .request k ev, v⟩ :: tr) k r := fun hev =>
    h.mono (by cases ev <;> simp_all [startsHandler])
  cases hq with
  | abort hs hd =>
    have idle := not_unfinished (shape.early (.inl hs)).1
    exact (hm (by simp)).lose _ (.inr rfl) fun hh => absurd hh idle
  | take hs =>
    have idle := not_unfinished (shape.early (.inl hs)).1
    exact (hm (by simp)).setStage _ (by simp) fun hh => absurd hh idle
  | read link hs he hc hp hr =>
    obtain ⟨idle, -⟩ := shape.early (.inr hs)
    have hm := hm (by simp)
    have hlink : link.server ∈ added tr := hadd _ _ hp
    exact ⟨hm.starts, hm.finished, by simpa using added_mono hlink,
      by simp [Request.answered], fun hh => absurd hh (not_unfinished idle)⟩
  | unread hs =>
    have idle := not_unfinished (shape.early (.inr hs)).1
    exact (hm (by simp)).lose _ (.inl rfl) fun hh => absurd hh idle
  | drop link hs hl hr =>
    have idle := not_unfinished (shape.connected hs).1
    exact (hm (by simp)).lose _ (.inl rfl) fun hh => absurd hh idle
  | dispatch hs =>
    have idle := (shape.connected hs).1
    have hm := hm (by simp)
    have hzero : Labrpc.starts (⟨w, .request k .dispatch, v⟩ :: tr) k = 0 := by
      simpa [Request.started, idle] using hm.starts
    exact ⟨by simpa [Request.started] using hzero, by simp, hm.known, by simp [Request.answered],
      by simp⟩
  | start hh =>
    have hzero : Labrpc.starts tr k = 0 := by simpa [Request.started, hh] using h.starts
    refine ⟨?_, by simp, fun link hl => added_mono (h.known link hl), ?_, ?_⟩
    · simp [starts_cons, startsHandler, hzero, Request.started]
    · intro msg ha hok
      obtain ⟨link, hl, hc⟩ := h.checked msg ha hok
      exact ⟨link, hl, hc.mono⟩
    · intro _ hw
      obtain ⟨link, hl, ht⟩ := h.gaveUp (.inl hh) hw
      exact ⟨link, hl, ht.mono⟩
  | finish msg hh =>
    have hm := hm (by simp)
    have hone := hm.starts
    refine ⟨by simpa [Request.started, hh] using hone, ?_, hm.known, hm.checked, ?_⟩
    · intro msg' hmsg
      cases hmsg
      exact ⟨_, List.mem_cons_self, rfl⟩
    · simp [Request.unfinished]
  | collect msg hs hh =>
    exact (hm (by simp)).setStage _ (by simp) (by simp [Request.unfinished, hh])
  | timeout link hs hl hd =>
    -- the handler may still be running: this step is the record that it was given up
    refine (hm (by simp)).setStage _ (by simp) fun _ _ => ?_
    exact ⟨link, hl, _, List.mem_cons_self, rfl, hd⟩
  | fail reply hs =>
    exact (hm (by simp)).lose _ (.inl rfl) fun _ => by simp [hs]
  | reply msg link hs hl hd =>
    have hdone := (shape.finishing _ hs).2 msg rfl
    refine (hm (by simp)).setStage _ ?_ (by simp [Request.unfinished, hdone])
    intro msg' hmsg _
    obtain rfl : msg = msg' := by simpa using hmsg
    exact ⟨link, hl, tr, _, [], r, rfl, rfl, hk, hs, hl, hd⟩
  | dropReply msg link hs hl hr =>
    exact (hm (by simp)).lose _ (.inl rfl) fun _ => by simp [hs]
  | deliver msg hs =>
    have hm := hm (by simp)
    refine hm.setStage _ ?_ fun hh _ => hm.gaveUp hh (by simp [hs])
    intro msg' hmsg
    obtain rfl : msg = msg' := by simpa using hmsg
    exact hm.checked msg (.inl hs)

end history

omit [DecidableEq P] in
theorem administer_servers {rn net : Network E N P} {op : Admin E N P} {n : N} {rs : P}
    (h : rn.administer op = some net) (hs : net.servers n = some rs) :
    rn.servers n = some rs ∨ op = .addServer n rs := by
  cases op with
  | makeEnd endname =>
    simp only [Network.administer, Network.makeEnd] at h
    split at h <;> cases h
    exact .inl hs
  | deleteEnd endname =>
    simp only [Network.administer, Network.deleteEnd] at h
    split at h <;> cases h
    exact .inl hs
  | addServer n' rs' =>
    cases h
    by_cases hn : n = n'
    · subst hn
      simp_all [Network.addServer]
    · left
      simpa [Network.addServer, hn] using hs
  | deleteServer n' =>
    cases h
    by_cases hn : n = n'
    · simp [Network.deleteServer, hn] at hs
    · left
      simpa [Network.deleteServer, hn] using hs
  | connect endname n' => cases h; exact .inl hs
  | enable endname enabled => cases h; exact .inl hs
  | reliable yes => cases h; exact .inl hs
  | cleanup =>
    simp only [Network.administer, Network.cleanup] at h
    split at h <;> cases h
    exact .inl hs

structure Account (tr : Trace E N P A R) (w : World E N P A R) : Prop where
  shape : ∀ (k : ℕ) r, w.reqs[k]? = some r → Shape r
  record : ∀ (k : ℕ) r, w.reqs[k]? = some r → Record tr k r
  unborn : ∀ k, w.reqs.length ≤ k → starts tr k = 0
  servers : ∀ n rs, w.net.servers n = some rs → rs ∈ added tr

section runs
variable {tr : Trace E N P A R} {w v : World E N P A R} {l : Label E N P A R}

/-- A server is there after a step only if it was there before or the step added it. -/
theorem servers_step {n : N} {rs : P} (h : Stepped w l v) (hs : v.net.servers n = some rs) :
    w.net.servers n = some rs ∨ l = .admin (.addServer n rs) := by
  cases h with
  | admin op net hop => simpa using administer_servers hop hs
  | call endname args => exact .inl hs
  | request k ev r q hk hq => exact .inl hs

theorem Account.servers_step (h : Account tr w) (hl : Stepped w l v) {n : N} {rs : P}
    (hs : v.net.servers n = some rs) : rs ∈ added (⟨w, l, v⟩ :: tr) := by
  rcases Labrpc.servers_step hl hs with hs | rfl
  · exact added_mono (h.servers n rs hs)
  · simp [added, addsServer]

omit [DecidableEq P] [DecidableEq E] [DecidableEq N] in
theorem getElem?_called {reqs : List (Request E N P A R)} {r r' : Request E N P A R} {k : ℕ}
    (h : (reqs ++ [r'])[k]? = some r) : reqs[k]? = some r ∨ reqs.length ≤ k ∧ r = r' := by
  rcases Nat.lt_or_ge k reqs.length with hk | hk
  · exact .inl (by rwa [List.getElem?_append_left hk] at h)
  · right
    rw [List.getElem?_append_right hk, List.getElem?_singleton] at h
    split at h <;> cases h
    exact ⟨hk, rfl⟩

theorem Account.step (h : Account tr w) (hl : Stepped w l v) : Account (⟨w, l, v⟩ :: tr) v := by
  have servers : ∀ n rs, v.net.servers n = some rs → rs ∈ added (⟨w, l, v⟩ :: tr) :=
    fun _ _ => h.servers_step hl
  cases hl with
  | admin op net hop =>
    exact ⟨h.shape, fun k r hk => (h.record k r hk).mono rfl,
      fun k hk => by simpa [starts_cons, startsHandler] using h.unborn k hk, servers⟩
  | call endname args =>
    have old : ∀ k u, w.reqs.length ≤ k → starts (⟨w, .call endname args, u⟩ :: tr) k = 0 :=
      fun k u hk => by simpa [starts_cons, startsHandler] using h.unborn k hk
    refine ⟨?_, ?_, ?_, servers⟩
    · intro k r hk
      rcases getElem?_called hk with hk | ⟨-, rfl⟩
      · exact h.shape k r hk
      · constructor <;> simp
    · intro k r hk
      rcases getElem?_called hk with hk | ⟨hlen, rfl⟩
      · exact (h.record k r hk).mono rfl
      · exact record_new endname args (old k _ hlen)
    · intro k hk
      exact old k _ (by simp only [List.length_append] at hk; omega)
  | request j ev r q hj hq =>
    have hlt : j < w.reqs.length := (List.getElem?_eq_some_iff.mp hj).choose
    have other : ∀ k, k ≠ j → startsHandler k
        (⟨w, .request j ev, { w with reqs := w.reqs.set j q }⟩ : Transition _ _) = false := by
      intro k hk
      cases ev <;> simp [startsHandler, Ne.symm hk]
    refine ⟨?_, ?_, ?_, servers⟩
    · intro k r' hk
      by_cases hkj : k = j
      · subst hkj
        rw [List.getElem?_set_self hlt, Option.some.injEq] at hk
        exact hk ▸ (h.shape k r hj).moved hq
      · rw [List.getElem?_set_ne (Ne.symm hkj)] at hk
        exact h.shape k r' hk
    · intro k r' hk
      by_cases hkj : k = j
      · subst hkj
        rw [List.getElem?_set_self hlt, Option.some.injEq] at hk
        exact hk ▸ (h.record k r hj).moved (h.shape k r hj) h.servers hj hq
      · rw [List.getElem?_set_ne (Ne.symm hkj)] at hk
        exact (h.record k r' hk).mono (other k hkj)
    · intro k hk
      rw [List.length_set] at hk
      rw [starts_cons, other k (by omega), h.unborn k hk]
      simp

theorem account (run : Run (labrpc E N P A R) tr w) : Account tr w := by
  refine run.history (I := Account) ?_ fun tr s l u _ h hs => h.step (exec_stepped hs)
  rintro s rfl
  constructor <;> simp [makeNetwork, starts]

omit [DecidableEq P] [DecidableEq E] [DecidableEq N] in
theorem added_twice {t : Transition (World E N P A R) (Label E N P A R)} {n : N} {rs : P}
    (once : (added (t :: tr)).Nodup) (hrs : rs ∈ added tr) :
    t.label ≠ .admin (.addServer n rs) := by
  intro hl
  have hcons : added (t :: tr) = rs :: added tr := by simp [added, addsServer, hl]
  rw [hcons, List.nodup_cons] at once
  exact once.1 hrs

omit [DecidableEq P] [DecidableEq E] [DecidableEq N] in
theorem added_append (rest past : Trace E N P A R) :
    added (rest ++ past) = added rest ++ added past := List.filterMap_append

/-- A server that had been added by some moment of a run and is there at its end was there at
    that moment, if no server is added twice. -/
theorem registered_between {before after : Trace E N P A R} {n : N} {rs : P}
    {t : Transition (World E N P A R) (Label E N P A R)}
    (run : Run (labrpc E N P A R) (after ++ t :: before) w)
    (once : (added (after ++ t :: before)).Nodup) (hrs : rs ∈ added before)
    (hw : w.net.servers n = some rs) : t.pre.net.servers n = some rs := by
  induction after generalizing w with
  | nil =>
    cases run with
    | next run h => exact (servers_step (exec_stepped h) hw).resolve_right (added_twice once hrs)
  | cons x after ih =>
    cases run with
    | next run h =>
      have hlater : rs ∈ added (after ++ t :: before) := by
        rw [added_append]
        exact List.mem_append_right _ (added_mono hrs)
      have hpre := (servers_step (exec_stepped h) hw).resolve_right (added_twice once hlater)
      rw [List.cons_append, added, List.filterMap_cons] at once
      refine ih run ?_ hpre
      split at once
      · exact once
      · exact once.of_cons

/-- A `Call` returns true only with the result of the one execution of its handler, on a
    server that was reachable when the handler had returned. If the tester adds no server
    twice, the server was there from `readEndnameInfo` on. -/
theorem true_reply (run : Run (labrpc E N P A R) tr w) {k : ℕ} {r : Request E N P A R}
    {msg : ReplyMsg R} (hk : w.reqs[k]? = some r) (hs : r.stage = .returned msg)
    (hok : msg.ok = true) :
    ∃ link before t after, r.link = some link ∧ tr = after ++ t :: before ∧
      t.label = .request k .reply ∧ starts before k = 1 ∧ starts tr k = 1 ∧
      (∃ x ∈ before, x.label = .request k (.finish msg)) ∧
      t.pre.net.enabled r.endname = true ∧
      t.pre.net.servers link.servername = some link.server ∧
      ((added tr).Nodup → ∀ x ∈ before, ∀ q, x.pre.reqs[k]? = some q → q.link = some link →
        x.pre.net.servers link.servername = some link.server) := by
  have record := (account run).record k r hk
  obtain ⟨link, hl, before, t, after, q, rfl, ht, hq, hfin, hql, alive⟩ :=
    record.checked msg (.inr hs) hok
  obtain ⟨henabled, hserver⟩ := isServerDead_eq_false.mp alive
  have hrun := run.before
  have hdone := ((account hrun).shape k q hq).finishing _ hfin |>.2 msg rfl
  have hrecord := (account hrun).record k q hq
  have hone : starts before k = 1 := by simpa [Request.started, hdone] using hrecord.starts
  have hmono : starts before k ≤ starts (after ++ t :: before) k := by
    simp only [starts, List.countP_append, List.countP_cons]
    omega
  have hmost : starts (after ++ t :: before) k ≤ 1 := by
    rw [record.starts]
    split <;> omega
  refine ⟨link, before, t, after, hl, rfl, ht, hone, by omega, hrecord.finished msg hdone,
    henabled, hserver, ?_⟩
  intro once x hx q' hq' hl'
  obtain ⟨later, earlier, rfl⟩ := List.append_of_mem hx
  have hadded : link.server ∈ added earlier :=
    ((account hrun.before).record k q' hq').known link hl'
  refine registered_between hrun ?_ hadded hserver
  rw [added_append] at once
  exact (List.nodup_append.mp once).2.1.sublist ((List.sublist_cons_self _ _).filterMap _)

def connectedEnd : List (Label ℕ ℕ ℕ ℕ ℕ) :=
  [.admin (.makeEnd 0), .admin (.addServer 7 100), .admin (.connect 0 7), .admin (.enable 0 true)]

def answeredCall : List (Label ℕ ℕ ℕ ℕ ℕ) :=
  List.flatten [connectedEnd, [.call 0 5, .request 0 .take, .request 0 .read,
    .request 0 .dispatch, .request 0 .start, .request 0 (.finish ⟨true, some 9⟩),
    .request 0 .collect, .request 0 .reply, .request 0 .deliver]]

theorem true_reply_answered : ∃ tr w r,
    replay exec ⟨makeNetwork, []⟩ [] answeredCall = some (tr, w) ∧ w.reqs[0]? = some r ∧
    r.stage = .returned ⟨true, some 9⟩ ∧ ∃ link before t after, r.link = some link ∧ tr = after ++ t :: before ∧
      t.label = .request 0 .reply ∧ starts before 0 = 1 ∧
      t.pre.net.servers link.servername = some link.server := by
  have hsome : (replay exec ⟨makeNetwork, []⟩ [] answeredCall).map
      (fun x => x.2.reqs[0]?.map Request.stage) = some (some (.returned ⟨true, some 9⟩)) := by
    decide +kernel
  obtain ⟨⟨tr, w⟩, hr, hd⟩ := Option.map_eq_some_iff.mp hsome
  obtain ⟨r, hk, hs⟩ := Option.map_eq_some_iff.mp hd
  have run : Run (labrpc ℕ ℕ ℕ ℕ ℕ) tr w := Run.replay (fun _ _ _ h => h) _ (.start rfl) hr
  obtain ⟨link, before, t, after, hl, htr, ht, hone, -, -, -, hserver, -⟩ :=
    true_reply run hk hs rfl
  exact ⟨tr, w, r, hr, hk, hs, link, before, t, after, hl, htr, ht, hone, hserver⟩

omit [DecidableEq E] [DecidableEq N] in
theorem Account.starts_le (h : Account tr w) (k : ℕ) : starts tr k ≤ 1 := by
  cases hk : w.reqs[k]? with
  | none =>
    rw [h.unborn k (List.getElem?_eq_none_iff.mp hk)]
    omega
  | some r =>
    rw [(h.record k r hk).starts]
    split <;> omega

omit [DecidableEq E] [DecidableEq N] in
/-- While a handler is not done, its `Call` waits for it or has found the server dead. -/
theorem Account.unfinished (h : Account tr w) {k : ℕ} {r : Request E N P A R}
    (hk : w.reqs[k]? = some r) (hr : r.unfinished) :
    ∃ link, r.link = some link ∧ (r.stage = .waiting ∨ TimedOut tr k r.endname link) := by
  by_cases hs : r.stage = .waiting
  · obtain ⟨link, hl⟩ := Option.isSome_iff_exists.mp ((h.shape k r hk).waiting hs).2
    exact ⟨link, hl, .inl hs⟩
  · obtain ⟨link, hl, ht⟩ := (h.record k r hk).gaveUp hr hs
    exact ⟨link, hl, .inr ht⟩

theorem Stepped.unfinished {k : ℕ} (h : Stepped w l v)
    (hl : l = .request k .start ∨ ∃ msg, l = .request k (.finish msg)) :
    ∃ q, w.reqs[k]? = some q ∧ q.unfinished := by
  cases h with
  | admin op net hop => simp at hl
  | call endname args => simp at hl
  | request j ev r q hj hq =>
    rcases hl with hl | ⟨msg, hl⟩
    · cases hl
      cases hq with
      | start hh => exact ⟨r, hj, .inl hh⟩
    · cases hl
      cases hq with
      | finish _ hh => exact ⟨r, hj, .inr hh⟩

/-- No handler runs twice for a `Call`, and one that takes a step when its `Call` no longer
    waits for it belongs to a server that was found dead. -/
theorem late_handler (run : Run (labrpc E N P A R) tr w) (k : ℕ) :
    starts tr k ≤ 1 ∧ ∀ t ∈ tr, t.label = .request k .start ∨
      (∃ msg, t.label = .request k (.finish msg)) →
      ∃ q link, t.pre.reqs[k]? = some q ∧ q.link = some link ∧
        (q.stage = .waiting ∨ TimedOut tr k q.endname link) := by
  refine ⟨(account run).starts_le k, fun t ht hl => ?_⟩
  obtain ⟨after, before, rfl⟩ := List.append_of_mem ht
  obtain ⟨-, step, -⟩ := run.visited ht
  obtain ⟨q, hq, hrun⟩ := (exec_stepped step).unfinished hl
  obtain ⟨link, hlink, hwhy⟩ := (account run.before).unfinished hq hrun
  refine ⟨q, link, hq, hlink, hwhy.imp_right ?_⟩
  rintro ⟨x, hx, rest⟩
  exact ⟨x, by simp [hx], rest⟩

/-- The server is deleted before its handler has started, and the call gives up. -/
def abandonedCall : List (Label ℕ ℕ ℕ ℕ ℕ) :=
  List.flatten [connectedEnd, [.call 0 5, .request 0 .take, .request 0 .read,
    .request 0 .dispatch, .admin (.deleteServer 7), .request 0 .timeout, .request 0 .reply,
    .request 0 .deliver, .request 0 .start, .request 0 (.finish ⟨true, some 9⟩)]]

theorem late_handler_abandoned : ∃ tr w r,
    replay exec ⟨makeNetwork, []⟩ [] abandonedCall = some (tr, w) ∧ w.reqs[0]? = some r ∧
    r.stage = .returned noReply ∧ r.handler = some (.returned ⟨true, some 9⟩) ∧ starts tr 0 ≤ 1 ∧
    ∀ t ∈ tr, t.label = .request 0 .start → ∃ q link, t.pre.reqs[0]? = some q ∧
      q.link = some link ∧ (q.stage = .waiting ∨ TimedOut tr 0 q.endname link) := by
  have hsome : (replay exec ⟨makeNetwork, []⟩ [] abandonedCall).map
      (fun x => x.2.reqs[0]?.map fun r => (r.stage, r.handler)) =
      some (some (.returned noReply, some (.returned ⟨true, some 9⟩))) := by decide +kernel
  obtain ⟨⟨tr, w⟩, hr, hd⟩ := Option.map_eq_some_iff.mp hsome
  obtain ⟨r, hk, hs⟩ := Option.map_eq_some_iff.mp hd
  obtain ⟨hstage, hhandler⟩ := Prod.mk.inj hs
  have run : Run (labrpc ℕ ℕ ℕ ℕ ℕ) tr w := Run.replay (fun _ _ _ h => h) _ (.start rfl) hr
  obtain ⟨hle, hlate⟩ := late_handler run 0
  exact ⟨tr, w, r, hr, hk, hstage, hhandler, hle, fun t ht hl => hlate t ht (.inl hl)⟩

end runs

end DistributedLabs.Labrpc
