import DistributedLabs.KvSrv

set_option autoImplicit false

/-!
# The lock over the single server

`Acquire` and `Release` of `kvsrv1/lock/lock.go`, over the clerks and the server of
`KvSrv`. Any number of `Lock` objects use one name; requests and replies may be lost, and
a request whose `Call` has given up may still be handled later. What protects a holder is
the version: whoever writes has read the version it names while the lock was free or its
own, so no write of another lock can meet the version under which the holder's id stands.
-/
namespace DistributedLabs.KvLock
open KvServer KvCalls KvSrv Runs

/-- The ids of the `Lock` objects, as `MakeLock` draws them without a collision. -/
structure LockIds (I : Type) where
  id : I → String
  distinct : Function.Injective id
  nonempty : ∀ i, id i ≠ ""

inductive Pc where
  | idle
  | held
  | acquireGet
  | acquirePut (version : ℕ)
  | acquireCheck
  | releasePut (version : ℕ)
  | releaseMaybe
  | releaseVersion
deriving DecidableEq

structure Lock where
  pc : Pc
  version : ℕ

def valueOf : Option (KvEntry String) → String
  | none => ""
  | some e => e.value

def afterAcquireGet (id : String) (entry : Option (KvEntry String)) (err : Err) : Pc :=
  if err = .errNoKey then .acquirePut 0
  else if err ≠ .ok then .acquireGet
  else if valueOf entry ≠ "" ∧ valueOf entry ≠ id then .acquireGet
  else .acquirePut (versionOf entry)

def Lock.resume (id : String) (lk : Lock) (res : Reply String) : Lock :=
  match lk.pc, res with
  | .acquireGet, .get entry err => { lk with pc := afterAcquireGet id entry err }
  | .acquirePut version, .put .ok => ⟨.held, version + 1⟩
  | .acquirePut _, .put .errMaybe => { lk with pc := .acquireCheck }
  | .acquirePut _, .put _ => { lk with pc := .acquireGet }
  | .acquireCheck, .get entry err =>
    if err = .ok ∧ valueOf entry = id then ⟨.held, versionOf entry⟩
    else { lk with pc := .acquireGet }
  | .releasePut _, .put .ok => { lk with pc := .idle }
  | .releasePut _, .put .errMaybe => { lk with pc := .releaseMaybe }
  | .releasePut _, .put .errVersion => { lk with pc := .releaseVersion }
  | .releasePut _, .put _ => { lk with pc := .idle }
  | .releaseMaybe, .get entry err =>
    if err ≠ .ok then { lk with pc := .idle }
    else if valueOf entry = "" then { lk with pc := .idle }
    else if valueOf entry ≠ id then { lk with pc := .idle }
    else { lk with pc := .releasePut (versionOf entry) }
  | .releaseVersion, .get entry err =>
    if err ≠ .ok ∨ valueOf entry ≠ id then { lk with pc := .idle }
    else { lk with pc := .releasePut (versionOf entry) }
  | _, _ => lk

section resume
variable {id : String} {version : ℕ} {entry : Option (KvEntry String)} {err : Err}

/-- The two reads of `Release` decide alike: the further test for `""` never differs. -/
theorem resume_releaseMaybe (hne : id ≠ "") :
    Lock.resume id ⟨.releaseMaybe, version⟩ (.get entry err) =
      if err = .ok ∧ valueOf entry = id then ⟨.releasePut (versionOf entry), version⟩
      else ⟨.idle, version⟩ := by
  by_cases herr : err = .ok
  · by_cases hid : valueOf entry = id
    · simp [Lock.resume, herr, hid, hne]
    · simp [Lock.resume, herr, hid]
  · simp [Lock.resume, herr]

theorem resume_releaseVersion :
    Lock.resume id ⟨.releaseVersion, version⟩ (.get entry err) =
      if err = .ok ∧ valueOf entry = id then ⟨.releasePut (versionOf entry), version⟩
      else ⟨.idle, version⟩ := by
  by_cases herr : err = .ok
  · by_cases hid : valueOf entry = id
    · simp [Lock.resume, herr, hid]
    · simp [Lock.resume, herr, hid]
  · simp [Lock.resume, herr]

theorem resume_acquireGet_ok {x : KvEntry String} :
    Lock.resume id ⟨.acquireGet, version⟩ (.get (some x) .ok) =
      if x.value ≠ "" ∧ x.value ≠ id then ⟨.acquireGet, version⟩
      else ⟨.acquirePut x.version, version⟩ := by
  by_cases hother : x.value ≠ "" ∧ x.value ≠ id
  · simp [Lock.resume, afterAcquireGet, valueOf, hother]
  · rw [if_neg hother]
    simp only [Lock.resume, afterAcquireGet, valueOf, hother]
    rfl

end resume

variable {I K : Type}

def Pc.call (name : K) (id : String) : Pc → Call K String
  | .idle => .idle
  | .held => .idle
  | .acquirePut version => .running (.put name id version) false .ready
  | .releasePut version => .running (.put name "" version) false .ready
  | _ => .running (.get name) false .ready

structure World (I K : Type) where
  net : KvSrv.World I K String
  locks : I → Lock
  /-- Requests whose `Call` has returned false, but which the server may still handle. -/
  late : List (I × Op K String)

inductive Label (I K : Type) where
  | acquire (i : I)
  | release (i : I)
  | resume (i : I)
  | send (i : I)
  | handle (i : I)
  /-- `Call` returns false: the request or the reply is lost. -/
  | fail (i : I)
  /-- `Call` returns false: the request is late. -/
  | delay (i : I)
  | handleLate (k : ℕ)
  | answer (i : I)
  /-- Anyone writes another key. -/
  | other (key : K) (value : String) (version : ℕ)

section machine
variable [DecidableEq I] [DecidableEq K] (ids : LockIds I) (name : K)

def World.go (w : World I K) (i : I) (lk : Lock) : World I K :=
  { w with
    net := w.net.set i (lk.pc.call name (ids.id i))
    locks := Function.update w.locks i lk }

def exec (w : World I K) : Label I K → Option (World I K)
  | .acquire i =>
    if (w.locks i).pc = .idle then some (w.go ids name i { w.locks i with pc := .acquireGet })
    else none
  | .release i =>
    if (w.locks i).pc = .held then
      some (w.go ids name i { w.locks i with pc := .releasePut (w.locks i).version })
    else none
  | .resume i =>
    match w.net.calls i with
    | .returned _ res => some (w.go ids name i ((w.locks i).resume (ids.id i) res))
    | _ => none
  | .send i => (KvSrv.exec w.net (.send i)).map fun net => { w with net := net }
  | .handle i => (KvSrv.exec w.net (.handle i)).map fun net => { w with net := net }
  | .fail i => (KvSrv.exec w.net (.fail i)).map fun net => { w with net := net }
  | .answer i => (KvSrv.exec w.net (.answer i)).map fun net => { w with net := net }
  | .delay i =>
    match w.net.calls i with
    | .running op _ .calling => (KvSrv.exec w.net (.fail i)).map fun net =>
        { w with net := net, late := (i, op) :: w.late }
    | _ => none
  | .handleLate k =>
    match w.late[k]? with
    | some x => some { w with
        net := { w.net with kv := (doOp w.net.kv x.2).1 }
        late := w.late.eraseIdx k }
    | none => none
  | .other key value version =>
    if key = name then none
    else some { w with net := { w.net with kv := (put w.net.kv key value version).1 } }

def locks : Machine (World I K) (Label I K) where
  init w := w = ⟨⟨fun _ => none, fun _ => .idle⟩, fun _ => ⟨.idle, 0⟩, []⟩
  step w l v := exec ids name w l = some v

end machine

section entries
variable {e e' : Option (KvEntry String)} {mine : String}

/-- What a request of the lock with id `mine` may do to the entry of the name. -/
structure Touch (mine : String) (e e' : Option (KvEntry String)) : Prop where
  later : Later e e'
  owner : e' = e ∨ ∀ x, e = some x → x.value = "" ∨ x.value = mine

theorem Touch.refl (mine : String) (e : Option (KvEntry String)) : Touch mine e e :=
  ⟨.same e, .inl rfl⟩

theorem Touch.keep {other : String} {x : KvEntry String} (h : Touch mine e e') (hx : e = some x)
    (ho : x.value = other) (hne : other ≠ "") (hm : other ≠ mine) : e' = e := by
  rcases h.owner with heq | hown
  · exact heq
  · rcases hown x hx with hv | hv
    · exact absurd (ho.symm.trans hv) hne
    · exact absurd (ho.symm.trans hv) hm

/-- The value under which the lock may write `value`: its own id, or none if it writes
    its id. -/
def Allowed (mine value : String) (v : String) : Prop := v = mine ∨ (value ≠ "" ∧ v = "")

variable [DecidableEq K] {kv : Store K String} {name : K}

theorem put_fenced {value : String} {ver : ℕ} (hf : Fenced (Allowed mine value) ver (kv name)) :
    Touch mine (kv name) ((put kv name value ver).1 name) ∧
      ver < versionOf ((put kv name value ver).1 name) ∧
      ((put kv name value ver).2 = .ok →
        (put kv name value ver).1 name = some ⟨value, ver + 1⟩ ∧
        (value = "" → ∀ x, kv name = some x → x.value = mine)) := by
  rcases put_cases kv name value ver with ⟨hm, hput⟩ | ⟨hm, hk, _⟩ | ⟨hm, hk, hput⟩
  · have hall : ∀ x, kv name = some x → Allowed mine value x.value := by
      intro x hx
      rw [hx] at hf hm
      exact hf.2 hm
    have hnew : (put kv name value ver).1 name = some ⟨value, ver + 1⟩ := by simp [hput]
    rw [hnew]
    refine ⟨⟨hm.later value, .inr fun x hx => ?_⟩, Nat.lt_succ_self ver, fun _ => ⟨rfl, ?_⟩⟩
    · exact (hall x hx).elim .inr fun h => .inl h.2
    · intro hv x hx
      exact (hall x hx).elim id fun h => absurd hv h.1
  · rw [hk] at hf hm
    exact absurd hf hm
  · rw [hput]
    refine ⟨.refl _ _, ?_, fun h => by cases h⟩
    obtain ⟨x, hx⟩ := Option.ne_none_iff_exists'.mp hk
    rw [hx] at hf hm
    have hle := hf.1
    have hne : x.version ≠ ver := hm
    simp only [hx, versionOf]
    omega

theorem put_passed {value : String} {ver : ℕ} (h : ver < versionOf (kv name)) :
    (put kv name value ver).1 = kv := by
  cases hk : kv name with
  | none =>
    rw [hk] at h
    cases h
  | some x =>
    rw [hk] at h
    have hspent : Spent (.put name value ver) kv := ⟨x, hk, h⟩
    rw [hspent.put_eq]

end entries

section invariant
variable (name : K) (mine : String)

inductive Doing (op : Op K String) (seen : Reply String → Prop) : Call K String → Prop where
  | ready (resent : Bool) : Doing op seen (.running op resent .ready)
  | calling (resent : Bool) : Doing op seen (.running op resent .calling)
  | handled (resent : Bool) (r : Reply String) (h : seen r) :
      Doing op seen (.running op resent (.handled r))
  | returned (r : Reply String) (h : seen r) : Doing op seen (.returned op r)

/-- A reply to `Get`: the entry may have changed since, but not if it had the lock's id. -/
def SeenGet (e : Option (KvEntry String)) (r : Reply String) : Prop :=
  ∃ entry err, r = .get entry err ∧ Later entry e ∧
    ((entry = none ∧ err = .errNoKey) ∨ (entry ≠ none ∧ err = .ok)) ∧
    ∀ x, entry = some x → x.value = mine → e = some x

/-- A reply to `Put`: its version has passed, and the id it wrote still stands. -/
def SeenPut (value : String) (ver : ℕ) (e : Option (KvEntry String)) (r : Reply String) : Prop :=
  ∃ err, r = .put err ∧ ver < versionOf e ∧
    (err = .ok → value = mine → e = some ⟨mine, ver + 1⟩)

structure Writing (value : String) (ver : ℕ) (e : Option (KvEntry String)) (call : Call K String) :
    Prop where
  fenced : Fenced (Allowed mine value) ver e
  doing : Doing (.put name value ver) (SeenPut mine value ver e) call

def LockInv (e : Option (KvEntry String)) (lk : Lock) (call : Call K String) : Prop :=
  match lk.pc with
  | .idle => call = .idle
  | .held => call = .idle ∧ e = some ⟨mine, lk.version⟩
  | .acquirePut version => Writing name mine mine version e call
  | .releasePut version => Writing name mine "" version e call
  | _ => Doing (.get name) (SeenGet mine e) call

variable {name mine} {e e' : Option (KvEntry String)} {lk : Lock} {call : Call K String}

theorem Doing.imp {op : Op K String} {seen seen' : Reply String → Prop} (h : Doing op seen call)
    (himp : ∀ r, seen r → seen' r) : Doing op seen' call := by
  cases h with
  | ready resent => exact .ready resent
  | calling resent => exact .calling resent
  | handled resent r hr => exact .handled resent r (himp r hr)
  | returned r hr => exact .returned r (himp r hr)

theorem Writing.touch {other value : String} {ver : ℕ} (h : Writing name mine value ver e call)
    (ht : Touch other e e') (hne : mine ≠ "") (hm : mine ≠ other) :
    Writing name mine value ver e' call := by
  refine ⟨h.fenced.later ht.later, h.doing.imp ?_⟩
  rintro r ⟨err, rfl, hlt, hok⟩
  refine ⟨err, rfl, Nat.lt_of_lt_of_le hlt ht.later.versionOf_le, fun herr hv => ?_⟩
  rw [ht.keep (hok herr hv) rfl hne hm]
  exact hok herr hv

theorem LockInv.touch {other : String} (h : LockInv name mine e lk call) (ht : Touch other e e')
    (hne : mine ≠ "") (hm : mine ≠ other) : LockInv name mine e' lk call := by
  have get : Doing (.get name) (SeenGet mine e) call →
      Doing (.get name) (SeenGet mine e') call := by
    intro hd
    refine hd.imp ?_
    rintro r ⟨entry, err, rfl, hl, herr, hown⟩
    refine ⟨entry, err, rfl, hl.trans ht.later, herr, fun x hx hv => ?_⟩
    rw [ht.keep (hown x hx hv) hv hne hm]
    exact hown x hx hv
  obtain ⟨pc, version⟩ := lk
  cases pc with
  | idle => exact h
  | held =>
    refine ⟨h.1, ?_⟩
    rw [ht.keep h.2 rfl hne hm]
    exact h.2
  | acquirePut ver => exact Writing.touch h ht hne hm
  | releasePut ver => exact Writing.touch h ht hne hm
  | acquireGet => exact get h
  | acquireCheck => exact get h
  | releaseMaybe => exact get h
  | releaseVersion => exact get h

theorem LockInv.map {call' : Call K String} (h : LockInv name mine e lk call) (hc : call ≠ .idle)
    (get : Doing (.get name) (SeenGet mine e) call → Doing (.get name) (SeenGet mine e') call')
    (put : ∀ value ver, Writing name mine value ver e call →
      Writing name mine value ver e' call') : LockInv name mine e' lk call' := by
  obtain ⟨pc, version⟩ := lk
  cases pc with
  | idle => exact absurd h hc
  | held => exact absurd h.1 hc
  | acquirePut ver => exact put _ _ h
  | releasePut ver => exact put _ _ h
  | acquireGet => exact get h
  | acquireCheck => exact get h
  | releaseMaybe => exact get h
  | releaseVersion => exact get h

theorem LockInv.doing (h : LockInv name mine e lk call) (hc : call ≠ .idle) :
    Doing (.get name) (SeenGet mine e) call ∨ ∃ value ver, Writing name mine value ver e call := by
  obtain ⟨pc, version⟩ := lk
  cases pc with
  | idle => exact absurd h hc
  | held => exact absurd h.1 hc
  | acquirePut ver => exact .inr ⟨_, _, h⟩
  | releasePut ver => exact .inr ⟨_, _, h⟩
  | acquireGet => exact .inl h
  | acquireCheck => exact .inl h
  | releaseMaybe => exact .inl h
  | releaseVersion => exact .inl h

theorem LockInv.writing {op : Op K String} {resent : Bool} {phase : Phase String} {key : K}
    {value : String} {ver : ℕ} (h : LockInv name mine e lk (.running op resent phase))
    (hop : op = .put key value ver) :
    key = name ∧ Writing name mine value ver e (.running op resent phase) := by
  subst hop
  rcases h.doing (by simp) with hd | ⟨value', ver', hw⟩
  · cases hd
  · have hop := hw.doing
    have heq : Op.put key value ver = .put name value' ver' := by
      cases hop <;> rfl
    cases heq
    exact ⟨rfl, hw⟩

theorem SeenGet.clerkResult {r : Reply String} (h : SeenGet mine e r) (resent : Bool) :
    SeenGet mine e (clerkResult resent r) := by
  obtain ⟨entry, err, rfl, h⟩ := h
  exact ⟨entry, err, rfl, h⟩

theorem SeenPut.clerkResult {value : String} {ver : ℕ} {r : Reply String}
    (h : SeenPut mine value ver e r) (resent : Bool) :
    SeenPut mine value ver e (clerkResult resent r) := by
  obtain ⟨err, rfl, hlt, hok⟩ := h
  refine ⟨_, rfl, hlt, fun herr => hok ?_⟩
  unfold putResult at herr
  split_ifs at herr
  exact herr

inductive Quiet : Call K String → Call K String → Prop where
  | send (op : Op K String) (resent : Bool) :
      Quiet (.running op resent .ready) (.running op resent .calling)
  | lose (op : Op K String) (resent : Bool) :
      Quiet (.running op resent .calling) (.running op true .ready)
  | loseReply (op : Op K String) (resent : Bool) (r : Reply String) :
      Quiet (.running op resent (.handled r)) (.running op true .ready)
  | answer (op : Op K String) (resent : Bool) (r : Reply String) :
      Quiet (.running op resent (.handled r)) (.returned op (clerkResult resent r))

theorem Doing.quiet {op : Op K String} {seen : Reply String → Prop} {call' : Call K String}
    (h : Doing op seen call) (hq : Quiet call call')
    (hseen : ∀ r, seen r → ∀ resent, seen (clerkResult resent r)) : Doing op seen call' := by
  cases hq with
  | send op' resent =>
    cases h
    exact .calling resent
  | lose op' resent =>
    cases h
    exact .ready true
  | loseReply op' resent r =>
    cases h
    exact .ready true
  | answer op' resent r =>
    cases h with
    | handled _ _ hr => exact .returned _ (hseen r hr resent)

theorem LockInv.quiet {call' : Call K String} (h : LockInv name mine e lk call)
    (hq : Quiet call call') : LockInv name mine e lk call' := by
  refine h.map (by cases hq <;> simp) (fun hd => hd.quiet hq fun _ hr => hr.clerkResult)
    fun value ver hw => ⟨hw.fenced, hw.doing.quiet hq fun _ hr => hr.clerkResult⟩

section requests
variable [DecidableEq K] {kv : Store K String}

theorem LockInv.request {op : Op K String} {resent : Bool} {phase : Phase String}
    (h : LockInv name mine (kv name) lk (.running op resent phase)) :
    Touch mine (kv name) ((doOp kv op).1 name) := by
  rcases h.doing (by simp) with hd | ⟨value, ver, hw⟩
  · cases hd <;> exact .refl _ _
  · have hput := (put_fenced hw.fenced).1
    obtain ⟨_, hdo⟩ := hw
    cases hdo <;> exact hput

theorem LockInv.handle {op : Op K String} {resent : Bool}
    (h : LockInv name mine (kv name) lk (.running op resent .calling)) :
    LockInv name mine ((doOp kv op).1 name) lk
      (.running op resent (.handled (doOp kv op).2)) := by
  refine h.map (by simp) (fun hd => ?_) fun value ver hw => ?_
  · cases hd
    obtain ⟨hentry, herr⟩ := get_spec kv name
    exact .handled resent _ ⟨kv name, _, by rw [doOp, hentry], .same _, herr, fun _ hx _ => hx⟩
  · obtain ⟨hf, hd⟩ := hw
    obtain ⟨htouch, hlt, hok⟩ := put_fenced hf
    cases hd
    refine ⟨hf.later htouch.later, .handled resent _ ⟨_, rfl, hlt, ?_⟩⟩
    rintro herr rfl
    exact (hok herr).1

theorem LockInv.late {op : Op K String} {resent : Bool} {phase : Phase String}
    (h : LockInv name mine (kv name) lk (.running op resent phase)) :
    LockInv name mine ((doOp kv op).1 name) lk (.running op resent phase) := by
  refine h.map (by simp) (fun hd => ?_) fun value ver hw => ?_
  · have hsame : (doOp kv op).1 = kv := by
      cases hd <;> rfl
    rwa [hsame]
  · obtain ⟨hf, hd⟩ := hw
    obtain ⟨htouch, _, _⟩ := put_fenced hf
    cases hd with
    | ready => exact ⟨hf.later htouch.later, .ready resent⟩
    | calling => exact ⟨hf.later htouch.later, .calling resent⟩
    | handled _ r hr =>
      -- the version has passed: nothing happens
      obtain ⟨err, hr', hlt, hok⟩ := hr
      have hsame : (doOp kv (.put name value ver)).1 = kv := put_passed hlt
      rw [hsame]
      exact ⟨hf, .handled resent r ⟨err, hr', hlt, hok⟩⟩

end requests

theorem fenced_of_later {P : String → Prop} {x : KvEntry String} (h : Later (some x) e)
    (hp : P x.value) : Fenced P x.version e :=
  Fenced.later (e := some x) ⟨Nat.le_refl _, fun _ => hp⟩ h

theorem read_some {entry : Option (KvEntry String)} {err : Err}
    (herr : (entry = none ∧ err = .errNoKey) ∨ (entry ≠ none ∧ err = .ok)) (hok : err = .ok) :
    ∃ x, entry = some x := by
  rcases herr with ⟨_, rfl⟩ | ⟨hsome, _⟩
  · cases hok
  · exact Option.ne_none_iff_exists'.mp hsome

theorem LockInv.acquire {version : ℕ} {res : Reply String} (hne : mine ≠ "")
    (hr : SeenGet mine e res) (hlk : lk = Lock.resume mine ⟨.acquireGet, version⟩ res) :
    LockInv name mine e lk (lk.pc.call name mine) := by
  obtain ⟨entry, err, rfl, hl, ⟨rfl, rfl⟩ | ⟨hsome, rfl⟩, hown⟩ := hr
  · rw [hlk]
    exact ⟨Fenced.later (e := none) rfl hl, .ready false⟩
  · obtain ⟨x, rfl⟩ := Option.ne_none_iff_exists'.mp hsome
    rw [resume_acquireGet_ok] at hlk
    by_cases hother : x.value ≠ "" ∧ x.value ≠ mine
    · rw [hlk, if_pos hother]
      exact Doing.ready false
    · rw [hlk, if_neg hother]
      refine ⟨fenced_of_later hl ?_, .ready false⟩
      by_cases hx : x.value = ""
      · exact .inr ⟨hne, hx⟩
      · exact .inl (not_not.mp fun hm => hother ⟨hx, hm⟩)

theorem LockInv.check {version : ℕ} {res : Reply String} (hr : SeenGet mine e res)
    (hlk : lk = Lock.resume mine ⟨.acquireCheck, version⟩ res) :
    LockInv name mine e lk (lk.pc.call name mine) := by
  obtain ⟨entry, err, rfl, hl, herr, hown⟩ := hr
  dsimp only [Lock.resume] at hlk
  by_cases hheld : err = .ok ∧ valueOf entry = mine
  · obtain ⟨x, rfl⟩ := read_some herr hheld.1
    obtain ⟨_, rfl⟩ := hheld
    rw [hlk, if_pos ⟨‹_›, rfl⟩, hown x rfl rfl]
    exact ⟨rfl, rfl⟩
  · rw [hlk, if_neg hheld]
    exact Doing.ready false

theorem LockInv.reread {version : ℕ} {entry : Option (KvEntry String)} {err : Err}
    (herr : (entry = none ∧ err = .errNoKey) ∨ (entry ≠ none ∧ err = .ok))
    (hown : ∀ x, entry = some x → x.value = mine → e = some x)
    (hlk : lk = if err = .ok ∧ valueOf entry = mine then ⟨.releasePut (versionOf entry), version⟩
      else ⟨.idle, version⟩) :
    LockInv name mine e lk (lk.pc.call name mine) := by
  by_cases hmine : err = .ok ∧ valueOf entry = mine
  · rw [hlk, if_pos hmine]
    obtain ⟨x, rfl⟩ := read_some herr hmine.1
    refine ⟨?_, .ready false⟩
    rw [hown x rfl hmine.2]
    exact ⟨Nat.le_refl _, fun _ => .inl hmine.2⟩
  · rw [hlk, if_neg hmine]
    rfl

theorem LockInv.resume {op : Op K String} {res : Reply String} (hne : mine ≠ "")
    (h : LockInv name mine e lk (.returned op res)) :
    LockInv name mine e (lk.resume mine res) ((lk.resume mine res).pc.call name mine) := by
  obtain ⟨pc, version⟩ := lk
  cases pc with
  | idle => cases h
  | held => cases h.1
  | acquireGet =>
    cases h with
    | returned r hr => exact LockInv.acquire hne hr rfl
  | acquirePut ver =>
    obtain ⟨hf, hd⟩ := h
    cases hd with
    | returned r hr =>
      obtain ⟨err, rfl, hlt, hok⟩ := hr
      cases err with
      | ok => exact ⟨rfl, hok rfl rfl⟩
      | errMaybe => exact .ready false
      | errNoKey => exact .ready false
      | errVersion => exact .ready false
      | errWrongLeader => exact .ready false
      | errWrongGroup => exact .ready false
  | acquireCheck =>
    cases h with
    | returned r hr => exact LockInv.check hr rfl
  | releasePut ver =>
    obtain ⟨hf, hd⟩ := h
    cases hd with
    | returned r hr =>
      obtain ⟨err, rfl, hlt, hok⟩ := hr
      cases err with
      | ok => rfl
      | errMaybe => exact .ready false
      | errVersion => exact .ready false
      | errNoKey => rfl
      | errWrongLeader => rfl
      | errWrongGroup => rfl
  | releaseMaybe =>
    cases h with
    | returned r hr =>
      obtain ⟨entry, err, rfl, hl, herr, hown⟩ := hr
      exact LockInv.reread herr hown (resume_releaseMaybe hne)
  | releaseVersion =>
    cases h with
    | returned r hr =>
      obtain ⟨entry, err, rfl, hl, herr, hown⟩ := hr
      exact LockInv.reread herr hown resume_releaseVersion

end invariant

section steps
variable {ids : LockIds I} {name : K} {w v : World I K}

/-- A late request is void, or it belongs to the present call of its lock. -/
def LateInv (name : K) (w : World I K) (x : I × Op K String) : Prop :=
  ∀ key value ver, x.2 = .put key value ver → key = name ∧
    (ver < versionOf (w.net.kv name) ∨ ∃ resent phase, w.net.calls x.1 = .running x.2 resent phase)

structure Inv (ids : LockIds I) (name : K) (w : World I K) : Prop where
  locks : ∀ i, LockInv name (ids.id i) (w.net.kv name) (w.locks i) (w.net.calls i)
  late : ∀ x ∈ w.late, LateInv name w x

theorem LateInv.mono {x : I × Op K String} (h : LateInv name w x)
    (hl : Later (w.net.kv name) (v.net.kv name))
    (hcall : ∀ resent phase, w.net.calls x.1 = .running x.2 resent phase →
      ∃ resent' phase', v.net.calls x.1 = .running x.2 resent' phase') : LateInv name v x := by
  intro key value ver hop
  obtain ⟨hk, h⟩ := h key value ver hop
  refine ⟨hk, h.imp (fun hlt => Nat.lt_of_lt_of_le hlt hl.versionOf_le) ?_⟩
  rintro ⟨resent, phase, hc⟩
  exact hcall _ _ hc

theorem LateInv.quiet {x : I × Op K String} (h : LateInv name w x)
    (hlock : LockInv name (ids.id x.1) (w.net.kv name) (w.locks x.1) (w.net.calls x.1))
    (hq : Quiet (w.net.calls x.1) (v.net.calls x.1)) (hkv : v.net.kv = w.net.kv) :
    LateInv name v x := by
  have hlater : Later (w.net.kv name) (v.net.kv name) := by
    rw [hkv]
    exact .same _
  generalize hcx : w.net.calls x.1 = c at hq hlock
  generalize hcv : v.net.calls x.1 = d at hq
  cases hq with
  | send op resent =>
    refine h.mono hlater fun _ _ hc => ⟨resent, .calling, ?_⟩
    cases hcx.symm.trans hc
    exact hcv
  | lose op resent =>
    refine h.mono hlater fun _ _ hc => ⟨true, .ready, ?_⟩
    cases hcx.symm.trans hc
    exact hcv
  | loseReply op resent r =>
    refine h.mono hlater fun _ _ hc => ⟨true, .ready, ?_⟩
    cases hcx.symm.trans hc
    exact hcv
  | answer op resent r =>
    -- the request was handled before, so its version has passed
    intro key value ver hop
    obtain ⟨hk, h⟩ := h key value ver hop
    refine ⟨hk, .inl ?_⟩
    rw [hkv]
    refine h.elim id ?_
    rintro ⟨_, _, hc⟩
    cases hcx.symm.trans hc
    obtain ⟨_, hw⟩ := hlock.writing hop
    obtain ⟨_, hd⟩ := hw
    generalize x.2 = op at hop hd
    subst hop
    cases hd with
    | handled _ _ hr =>
      obtain ⟨_, _, hlt, _⟩ := hr
      exact hlt

variable [DecidableEq I]

theorem Inv.step (hi : Inv ids name w) (i : I)
    (ht : Touch (ids.id i) (w.net.kv name) (v.net.kv name))
    (others : ∀ j, j ≠ i → v.locks j = w.locks j ∧ v.net.calls j = w.net.calls j)
    (self : LockInv name (ids.id i) (v.net.kv name) (v.locks i) (v.net.calls i))
    (late : ∀ x ∈ v.late, (x ∈ w.late ∧ x.1 ≠ i) ∨ LateInv name v x) : Inv ids name v := by
  constructor
  · intro j
    by_cases hj : j = i
    · subst hj
      exact self
    · rw [(others j hj).1, (others j hj).2]
      exact (hi.locks j).touch ht (ids.nonempty j) fun h => hj (ids.distinct h)
  · intro x hx
    rcases late x hx with ⟨hx, hne⟩ | h
    · refine (hi.late x hx).mono ht.later fun resent phase hc => ?_
      exact ⟨resent, phase, by rwa [(others x.1 hne).2]⟩
    · exact h

/-- The lock moves on in its code: its late requests are void by now. -/
theorem inv_go (hi : Inv ids name w) (i : I) {lk : Lock}
    (hc : ∀ op resent phase, w.net.calls i ≠ .running op resent phase)
    (hlk : LockInv name (ids.id i) (w.net.kv name) lk (lk.pc.call name (ids.id i))) :
    Inv ids name (w.go ids name i lk) := by
  refine hi.step i (.refl _ _) (fun j hj => ?_) ?_ fun x hx => ?_
  · simp [World.go, KvSrv.World.set, hj]
  · simpa [World.go, KvSrv.World.set] using hlk
  · by_cases hxi : x.1 = i
    · right
      intro key value ver hop
      obtain ⟨hk, h⟩ := hi.late x hx key value ver hop
      refine ⟨hk, .inl (h.resolve_right ?_)⟩
      rintro ⟨resent, phase, h⟩
      rw [hxi] at h
      exact hc _ _ _ h
    · exact .inl ⟨hx, hxi⟩

theorem inv_quiet (hi : Inv ids name w) {i : I} {call : Call K String}
    {late : List (I × Op K String)} (hq : Quiet (w.net.calls i) call)
    (hlate : ∀ x ∈ late, x ∈ w.late ∨
      (x.1 = i ∧ ∃ resent phase, call = .running x.2 resent phase)) :
    Inv ids name { w with net := w.net.set i call, late := late } := by
  have self : LockInv name (ids.id i) (w.net.kv name) (w.locks i) call := (hi.locks i).quiet hq
  have hcall : (w.net.set i call).calls i = call := by simp [KvSrv.World.set]
  refine hi.step i (.refl _ _) (fun j hj => ?_) ?_ fun x hx => ?_
  · simp [KvSrv.World.set, hj]
  · rw [hcall]
    exact self
  · rcases hlate x hx with hmem | ⟨rfl, resent, phase, hc⟩
    · by_cases hxi : x.1 = i
      · subst hxi
        refine .inr ((hi.late x hmem).quiet (hi.locks x.1) ?_ rfl)
        rw [hcall]
        exact hq
      · exact .inl ⟨hmem, hxi⟩
    · right
      intro key value ver hop
      rw [hc] at self
      exact ⟨(self.writing hop).1, .inr ⟨resent, phase, hcall.trans hc⟩⟩

variable [DecidableEq K]

theorem inv_handle (hi : Inv ids name w) {i : I} {op : Op K String} {resent : Bool}
    (hc : w.net.calls i = .running op resent .calling) :
    Inv ids name { w with
      net := { w.net.set i (.running op resent (.handled (doOp w.net.kv op).2)) with
        kv := (doOp w.net.kv op).1 } } := by
  have hpre := hi.locks i
  rw [hc] at hpre
  refine hi.step i hpre.request (fun j hj => ?_) ?_ fun x hx => ?_
  · simp [KvSrv.World.set, hj]
  · simpa [KvSrv.World.set] using hpre.handle
  · by_cases hxi : x.1 = i
    · right
      subst hxi
      refine (hi.late x hx).mono (doOp_later _ _ _) fun _ _ h => ?_
      rw [hc] at h
      cases h
      exact ⟨resent, .handled (doOp w.net.kv x.2).2, by simp [KvSrv.World.set]⟩
    · exact .inl ⟨hx, hxi⟩

/-- A late request is handled: it is void, or it acts for the present call of its lock. -/
theorem inv_handleLate (hi : Inv ids name w) {k : ℕ} {x : I × Op K String}
    (hk : w.late[k]? = some x) :
    Inv ids name { w with
      net := { w.net with kv := (doOp w.net.kv x.2).1 }
      late := w.late.eraseIdx k } := by
  have hx := List.mem_of_getElem? hk
  have hself := hi.locks x.1
  have hwork : Touch (ids.id x.1) (w.net.kv name) ((doOp w.net.kv x.2).1 name) ∧
      LockInv name (ids.id x.1) ((doOp w.net.kv x.2).1 name) (w.locks x.1) (w.net.calls x.1) := by
    cases hop : x.2 with
    | get key => exact ⟨.refl _ _, hself⟩
    | put key value ver =>
      obtain ⟨rfl, hvoid | ⟨resent, phase, hc⟩⟩ := hi.late x hx key value ver hop
      · have hsame : (doOp w.net.kv (.put key value ver)).1 = w.net.kv := put_passed hvoid
        rw [hsame]
        exact ⟨.refl _ _, hself⟩
      · rw [hc, hop] at hself ⊢
        exact ⟨hself.request, hself.late⟩
  refine hi.step x.1 hwork.1 (fun j _ => ⟨rfl, rfl⟩) hwork.2 fun y hy => .inr ?_
  exact (hi.late y (List.mem_of_mem_eraseIdx hy)).mono (doOp_later _ _ _)
    fun resent phase h => ⟨resent, phase, h⟩

omit [DecidableEq I] in
theorem inv_other (hi : Inv ids name w) {key : K} {value : String} {version : ℕ}
    (hkey : key ≠ name) :
    Inv ids name { w with net := { w.net with kv := (put w.net.kv key value version).1 } } := by
  have hsame : (put w.net.kv key value version).1 name = w.net.kv name := by
    rcases put_cases w.net.kv key value version with ⟨_, hput⟩ | ⟨_, _, hput⟩ | ⟨_, _, hput⟩
    · simp [hput, Function.update_of_ne (Ne.symm hkey)]
    · simp [hput]
    · simp [hput]
  refine ⟨fun i => ?_, fun x hx => (hi.late x hx).mono ?_ fun resent phase h => ⟨resent, phase, h⟩⟩
  · dsimp only
    rw [hsame]
    exact hi.locks i
  · dsimp only
    rw [hsame]
    exact .same _

theorem inv_step (hi : Inv ids name w) {l : Label I K} (h : exec ids name w l = some v) :
    Inv ids name v := by
  cases l with
  | acquire i =>
    dsimp only [exec] at h
    split_ifs at h with hpc
    cases h
    have hself := hi.locks i
    simp only [LockInv, hpc] at hself
    exact inv_go hi i (by simp [hself]) (.ready false)
  | release i =>
    dsimp only [exec] at h
    split_ifs at h with hpc
    cases h
    have hself := hi.locks i
    simp only [LockInv, hpc] at hself
    refine inv_go hi i (by simp [hself.1]) ⟨?_, .ready false⟩
    rw [hself.2]
    exact ⟨Nat.le_refl _, fun _ => .inl rfl⟩
  | resume i =>
    dsimp only [exec] at h
    split at h
    case h_2 => cases h
    case h_1 op res hc =>
      cases h
      have hself := hi.locks i
      rw [hc] at hself
      exact inv_go hi i (by simp [hc]) (hself.resume (ids.nonempty i))
  | send i =>
    obtain ⟨net, hnet, rfl⟩ := Option.map_eq_some_iff.mp h
    cases KvSrv.exec_stepped hnet with
    | send _ op resent hc =>
      exact inv_quiet hi (by rw [hc]; exact .send op resent) fun x hx => .inl hx
  | handle i =>
    obtain ⟨net, hnet, rfl⟩ := Option.map_eq_some_iff.mp h
    cases KvSrv.exec_stepped hnet with
    | handle _ op resent hc => exact inv_handle hi hc
  | fail i =>
    obtain ⟨net, hnet, rfl⟩ := Option.map_eq_some_iff.mp h
    cases KvSrv.exec_stepped hnet with
    | lose _ op resent hc =>
      exact inv_quiet hi (by rw [hc]; exact .lose op resent) fun x hx => .inl hx
    | loseReply _ op resent r hc =>
      exact inv_quiet hi (by rw [hc]; exact .loseReply op resent r) fun x hx => .inl hx
  | delay i =>
    dsimp only [exec] at h
    split at h
    case h_2 => cases h
    case h_1 op resent hc =>
      obtain ⟨net, hnet, rfl⟩ := Option.map_eq_some_iff.mp h
      simp only [KvSrv.exec, hc, Option.some.injEq] at hnet
      subst hnet
      -- to the clerk a request that is late looks like one that is lost
      refine inv_quiet hi (by rw [hc]; exact .lose op resent) fun x hx => ?_
      rcases List.mem_cons.mp hx with rfl | hx
      · exact .inr ⟨rfl, true, .ready, rfl⟩
      · exact .inl hx
  | handleLate k =>
    dsimp only [exec] at h
    split at h <;> cases h
    case h_1 x hk => exact inv_handleLate hi hk
  | answer i =>
    obtain ⟨net, hnet, rfl⟩ := Option.map_eq_some_iff.mp h
    cases KvSrv.exec_stepped hnet with
    | answer _ op resent r hc =>
      exact inv_quiet hi (by rw [hc]; exact .answer op resent r) fun x hx => .inl hx
  | other key value version =>
    dsimp only [exec] at h
    split_ifs at h with hkey
    cases h
    exact inv_other hi hkey

end steps

section main
variable [DecidableEq I] [DecidableEq K] {ids : LockIds I} {name : K} {w : World I K}
  {tr : List (Transition (World I K) (Label I K))}

theorem run_inv (run : Run (locks ids name) tr w) : Inv ids name w := by
  refine run.invariant (I := Inv ids name) ?_ fun s l u hi h => inv_step hi h
  rintro _ rfl
  exact ⟨fun i => rfl, nofun⟩

def MutualExclusion (w : World I K) : Prop :=
  ∀ i j, (w.locks i).pc = .held → (w.locks j).pc = .held → i = j

inductive ReleaseRequest (name : K) (t : Transition (World I K) (Label I K)) (i : I) : Prop where
  | now (version : ℕ) (resent : Bool) (hl : t.label = .handle i)
      (hc : t.pre.net.calls i = .running (.put name "" version) resent .calling) :
      ReleaseRequest name t i
  | late (k version : ℕ) (hl : t.label = .handleLate k)
      (hk : t.pre.late[k]? = some (i, .put name "" version)) : ReleaseRequest name t i

def ReleasesOwn (ids : LockIds I) (name : K) (tr : List (Transition (World I K) (Label I K))) :
    Prop :=
  ∀ t ∈ tr, ∀ i, ReleaseRequest name t i → t.post.net.kv name ≠ t.pre.net.kv name →
    ∀ x, t.pre.net.kv name = some x → x.value = ids.id i

theorem release_own {kv : Store K String} {mine : String} {lk : Lock} {version : ℕ} {resent : Bool}
    {phase : Phase String}
    (h : LockInv name mine (kv name) lk (.running (.put name "" version) resent phase))
    (hne : (doOp kv (.put name "" version)).1 name ≠ kv name) :
    ∀ x, kv name = some x → x.value = mine := by
  obtain ⟨_, hw⟩ := h.writing rfl
  obtain ⟨_, _, hok⟩ := put_fenced hw.fenced
  refine (hok ?_).2 rfl
  have hch := (doOp_key_ne_iff kv (.put name "" version)).mp hne
  rw [(put_of_changes hch).2]

theorem mutual_exclusion (run : Run (locks ids name) tr w) :
    MutualExclusion w ∧ ReleasesOwn ids name tr := by
  constructor
  · intro i j hi hj
    have inv := run_inv run
    have hli := inv.locks i
    have hlj := inv.locks j
    simp only [LockInv, hi] at hli
    simp only [LockInv, hj] at hlj
    have heq := hli.2.symm.trans hlj.2
    simp only [Option.some.injEq, KvEntry.mk.injEq] at heq
    exact ids.distinct heq.1
  · intro t ht i hreq hne
    obtain ⟨⟨past, hpast⟩, hstep, _⟩ := run.visited ht
    have inv := run_inv hpast
    have hself := inv.locks i
    have hstep : exec ids name t.pre t.label = some t.post := hstep
    cases hreq with
    | now version resent hl hc =>
      rw [hl] at hstep
      obtain ⟨net, hnet, hpost⟩ := Option.map_eq_some_iff.mp hstep
      simp only [KvSrv.exec, hc, Option.some.injEq] at hnet
      subst hnet
      rw [hc] at hself
      refine release_own hself fun h => hne ?_
      rw [← hpost]
      exact h
    | late k version hl hk =>
      rw [hl] at hstep
      simp only [exec, hk, Option.some.injEq] at hstep
      rw [← hstep] at hne
      obtain ⟨_, hvoid | ⟨resent, phase, hc⟩⟩ :=
        inv.late _ (List.mem_of_getElem? hk) name "" version rfl
      · exact absurd (congrFun (put_passed hvoid) name) hne
      · rw [hc] at hself
        exact release_own hself hne

end main

section sample

def twoIds : LockIds Bool where
  id b := if b then "b" else "a"
  distinct a b := by
    revert a b
    decide
  nonempty := by decide

/-- The first lock's write is late and its repetition is told ErrVersion; it finds its id
    and holds. The other one waits, and gets the lock after the release. -/
def handOver : Option (List (Transition (World Bool ℕ) (Label Bool ℕ)) × World Bool ℕ) :=
  replay (exec twoIds 0) ⟨⟨fun _ => none, fun _ => .idle⟩, fun _ => ⟨.idle, 0⟩, []⟩ []
    [.acquire false, .send false, .handle false, .answer false, .resume false, .send false,
      .delay false, .handleLate 0, .send false, .handle false, .answer false, .resume false,
      .send false, .handle false, .answer false, .resume false,
      .acquire true, .send true, .handle true, .answer true, .resume true,
      .release false, .send false, .handle false, .answer false, .resume false,
      .send true, .handle true, .answer true, .resume true, .send true, .handle true, .answer true,
      .resume true]

theorem mutual_exclusion_handOver : ∃ r, handOver = some r ∧
    (∃ t ∈ r.1, (t.pre.locks false).pc = .held ∧ (t.pre.locks true).pc = .acquireGet) ∧
    (r.2.locks true).pc = .held ∧ MutualExclusion r.2 ∧ ReleasesOwn twoIds 0 r.1 := by
  have hsome : handOver.map (fun r => decide
      ((∃ t ∈ r.1, (t.pre.locks false).pc = .held ∧ (t.pre.locks true).pc = .acquireGet) ∧
        (r.2.locks true).pc = .held)) = some true := by decide +kernel
  obtain ⟨r, hr, hd⟩ := Option.map_eq_some_iff.mp hsome
  obtain ⟨hfirst, hsecond⟩ := of_decide_eq_true hd
  exact ⟨r, hr, hfirst, hsecond, mutual_exclusion (Run.replay (fun _ _ _ h => h) _ (.start rfl) hr)⟩

end sample
end DistributedLabs.KvLock
