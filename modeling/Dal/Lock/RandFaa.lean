/-
The lock of the `RAND_FAA` builds: a set of waiting nodes added up in one word.

A node that wants the lock adds `1 << nodeID` to the word on the memory node.  If
the word was 0 it has the lock; otherwise it spins on a word of its own memory.  A
releasing node subtracts its bit again, and unless it was alone it draws one of the
nodes whose bit it saw set and writes a 1 to that node's spin location.

Within a node the local lock admits one thread at a time, so at most one thread per
node touches the word.  Here the local lock is only what its two implementations
provide, `SHERMAN_LOCK`'s as long as it is acquired fewer than 2^32 times (see
`Dal.Lock.Ticket`): it admits a waiting thread when it is free, and `can_hand_over`
may answer yes only while another thread of the node waits for it.

One action is one access to shared memory.  `posted` are the wake-up writes that
were posted and not executed yet, signalled or not.
-/
import Dal.Common
import Dal.Lib.Transition
import Mathlib.Logic.Function.Basic
import Mathlib.Data.List.Nodup

namespace Dal.RandFaa

/-- What the builds and the drivers fix. -/
structure Config where
  /-- Nodes of the cluster. -/
  nodes : Nat
  nodes_le : nodes ≤ MAX_MACHINE
  /-- Locks of each memory node. -/
  lockNR : Nat
  /-- `DSM::getLmSize()`. -/
  lockMetaSize : Nat
  /-- Built with `HANDOVER`. -/
  handover : Bool

structure Thread where
  node : Nat
  id : Nat
  deriving DecidableEq, Repr

inductive Pc
  | idle
  /-- In `acquire_local_lock`. -/
  | waiting (l : LockAddr)
  /-- Admitted without handover, before `faa_dm_sync(lock_addr, add)`. -/
  | faaAcquire (l : LockAddr)
  /-- In the loop of `DSM::spin_on`. -/
  | spinning (l : LockAddr)
  /-- Out of the loop, before `*spin_loc = 0`. -/
  | woken (l : LockAddr)
  /-- `try_lock_addr` has returned. -/
  | holding (l : LockAddr)
  /-- `can_hand_over` said yes: only the local lock is left to release. -/
  | handing (l : LockAddr)
  /-- Before `faa_dm_sync(lock_addr, -(1ULL << nodeID))`. -/
  | faaRelease (l : LockAddr)
  /-- `randNodeID` has drawn `peer`, the wake-up is not posted yet. -/
  | wakePeer (l : LockAddr) (peer : Nat)
  /-- Before `releases_local_lock`, waiting for `wait` to be executed if there is one. -/
  | releasing (l : LockAddr) (wait : Option (Nat × Nat))
  /-- The assertion of `randNodeID` or the one on `peerSpinLoc.nodeID` failed. -/
  | failed
  deriving DecidableEq

structure State where
  /-- The lock words on the memory nodes. -/
  word : LockAddr → BitVec 64
  /-- The lock-meta memory of each node, by node and offset. -/
  spin : Nat → Nat → Nat
  /-- Wake-ups on their way, by node and offset. -/
  posted : List (Nat × Nat)
  /-- `hand_over` of each node's slot. -/
  flag : Nat → LockAddr → Bool
  /-- The thread the local lock has admitted. -/
  owner : Nat → LockAddr → Option Thread
  pc : Thread → Pc

def State.init : State where
  word := fun _ => 0
  spin := fun _ _ => 0
  posted := []
  flag := fun _ _ => false
  owner := fun _ _ => none
  pc := fun _ => .idle

def State.setPc (s : State) (t : Thread) (p : Pc) : State :=
  { s with pc := Function.update s.pc t p }

def State.setOwner (s : State) (n : Nat) (l : LockAddr) (o : Option Thread) : State :=
  { s with owner := fun n' l' => if n' = n ∧ l' = l then o else s.owner n' l' }

def State.setFlag (s : State) (n : Nat) (l : LockAddr) (b : Bool) : State :=
  { s with flag := fun n' l' => if n' = n ∧ l' = l then b else s.flag n' l' }

def State.setSpin (s : State) (n off v : Nat) : State :=
  { s with spin := fun n' off' => if n' = n ∧ off' = off then v else s.spin n' off' }

/-- `(lock_addr.nodeID * getLmSize()) + lock_addr.offset`, the offset both sides compute. -/
def spinLoc (cfg : Config) (l : LockAddr) : Nat := l.nodeID * cfg.lockMetaSize + l.offset

/-- `1ULL << nodeID`. -/
def nodeBit (n : Nat) : BitVec 64 := 1#64 <<< n

/-- The array `indices` of `randNodeID`: the set bits but `nodeID`'s, lowest first. -/
def peerIndices (nodeID : Nat) (value : BitVec 64) : List Nat :=
  ((List.range 64).filter fun i => (value &&& ~~~ nodeBit nodeID).getLsbD i).take MAX_MACHINE

inductive Action
  /-- An idle thread calls `try_lock_addr(l)`. -/
  | start (t : Thread) (l : LockAddr)
  /-- The thread's next step: `waiter` is what `can_hand_over` sees, `r` what the random
  distribution draws, `sync` how a wake-up is posted. -/
  | run (t : Thread) (waiter : Option Thread) (r : Nat) (sync : Bool)
  /-- A posted wake-up is executed. -/
  | land (peer off : Nat)

/-- The release once `can_hand_over` said no: subtract the bit, and draw a peer if not alone. -/
def faaRelease (s : State) (t : Thread) (l : LockAddr) (r : Nat) : Option State :=
  let lockMeta := s.word l
  let s' := { s with word := Function.update s.word l (lockMeta + -nodeBit t.node) }
  if lockMeta = nodeBit t.node then
    some (s'.setPc t (.releasing l none))
  else
    let indices := peerIndices t.node lockMeta
    if indices = [] then
      some (s'.setPc t .failed)
    else
      match indices[r]? with
      | none => none
      | some peer =>
          if peer ≠ t.node then some (s'.setPc t (.wakePeer l peer)) else some (s'.setPc t .failed)

/-- The next step of a thread that is in `try_lock_addr` or releasing. -/
def runThread (cfg : Config) (s : State) (t : Thread) (waiter : Option Thread) (r : Nat)
    (sync : Bool) : Option State :=
  match s.pc t with
  | .idle => none
  | .failed => none
  | .waiting l =>
      if s.owner t.node l = none then
        some ((s.setOwner t.node l (some t)).setPc t
          (if cfg.handover && s.flag t.node l then .holding l else .faaAcquire l))
      else none
  | .faaAcquire l =>
      let lockMeta := s.word l
      some ({ s with word := Function.update s.word l (lockMeta + nodeBit t.node) }.setPc t
        (if lockMeta = 0 then .holding l else .spinning l))
  | .spinning l =>
      if s.spin t.node (spinLoc cfg l) = 0 then some s else some (s.setPc t (.woken l))
  | .woken l => some ((s.setSpin t.node (spinLoc cfg l) 0).setPc t (.holding l))
  | .holding l =>
      match waiter with
      | some u =>
          if cfg.handover = true ∧ u ≠ t ∧ u.node = t.node ∧ s.pc u = .waiting l then
            some ((s.setFlag t.node l true).setPc t (.handing l))
          else none
      | none => some ((s.setFlag t.node l false).setPc t (.faaRelease l))
  | .handing l => some ((s.setOwner t.node l none).setPc t .idle)
  | .faaRelease l => faaRelease s t l r
  | .wakePeer l peer =>
      some ({ s with posted := (peer, spinLoc cfg l) :: s.posted }.setPc t
        (.releasing l (if sync then some (peer, spinLoc cfg l) else none)))
  | .releasing l wait =>
      if ∃ w ∈ wait, w ∈ s.posted then none
      else some ((s.setOwner t.node l none).setPc t .idle)

def step (cfg : Config) (s : State) : Action → Option State
  | .start t l =>
      match s.pc t with
      | .idle =>
          if t.node < cfg.nodes ∧ l.index < cfg.lockNR then some (s.setPc t (.waiting l)) else none
      | _ => none
  | .run t waiter r sync => runThread cfg s t waiter r sync
  | .land peer off =>
      if (peer, off) ∈ s.posted then
        some { s.setSpin peer off 1 with posted := s.posted.erase (peer, off) }
      else none

/-- Any number of threads on each of the nodes, any interleaving. -/
def machine (cfg : Config) : System State Action where
  Init := (· = State.init)
  step := step cfg

/-! ### What the program counters say -/

/-- The lock a thread works on. -/
def Pc.lock : Pc → Option LockAddr
  | .waiting l | .faaAcquire l | .spinning l | .woken l | .holding l | .handing l
  | .faaRelease l | .wakePeer l _ | .releasing l _ => some l
  | .idle | .failed => none

/-- The lock whose local lock a thread was admitted to. -/
def Pc.admitted : Pc → Option LockAddr
  | .faaAcquire l | .spinning l | .woken l | .holding l | .handing l | .faaRelease l
  | .wakePeer l _ | .releasing l _ => some l
  | .idle | .waiting _ | .failed => none

/-- The lock a thread is between the return of `try_lock_addr` and the release of. -/
def Pc.holds : Pc → Option LockAddr
  | .holding l | .handing l | .faaRelease l => some l
  | _ => none

/-- The lock a thread waits for with its node's bit set. -/
def Pc.waits : Pc → Option LockAddr
  | .spinning l | .woken l => some l
  | _ => none

/-- The lock whose `hand_over` a thread has left false. -/
def Pc.unflagged : Pc → Option LockAddr
  | .faaAcquire l | .spinning l | .woken l | .faaRelease l | .wakePeer l _
  | .releasing l _ => some l
  | _ => none

/-- Node `n` holds lock `l`: a thread of it does, or it is being handed to one. -/
def NodeHolds (s : State) (n : Nat) (l : LockAddr) : Prop :=
  (∃ t, t.node = n ∧ (s.pc t).holds = some l) ∨ s.flag n l = true

/-- A thread of node `n` waits for lock `l` with the node's bit set. -/
def NodeWaits (s : State) (n : Nat) (l : LockAddr) : Prop :=
  ∃ t, t.node = n ∧ (s.pc t).waits = some l

/-! ### Where the lock is

At any time the lock is in one place: nobody wants it, a node holds it, a releasing
thread is about to give it away, or it travels as a wake-up that is in flight or
has arrived and is not read yet.
-/

inductive Place
  | free
  | node (n : Nat)
  | leaving (t : Thread) (peer : Nat)
  | flight (peer : Nat)
  | unread (peer : Nat)
  deriving DecidableEq

/-- Whatever shows that the lock is at its place. -/
def At (cfg : Config) (s : State) (l : LockAddr) : Place → Prop
  | .free => s.word l = 0
  | .node n => NodeHolds s n l
  | .leaving t peer => s.pc t = .wakePeer l peer ∧ NodeWaits s peer l
  | .flight peer => (peer, spinLoc cfg l) ∈ s.posted ∧ NodeWaits s peer l
  | .unread peer => s.spin peer (spinLoc cfg l) ≠ 0 ∧ NodeWaits s peer l

/-- The invariant of one lock. -/
structure InvAt (cfg : Config) (s : State) (l : LockAddr) (place : Place) : Prop where
  admitted : ∀ t, (s.pc t).admitted = some l ↔ s.owner t.node l = some t
  ownerNode : ∀ n t, s.owner n l = some t → t.node = n
  /-- The word is the set of the nodes that hold or wait. -/
  bit : ∀ i, i < 64 → ((s.word l).getLsbD i = true ↔ NodeHolds s i l ∨ NodeWaits s i l)
  found : At cfg s l place
  holds : ∀ n, NodeHolds s n l → place = .node n
  leaving : ∀ t peer, s.pc t = .wakePeer l peer → place = .leaving t peer
  flight : ∀ peer, (peer, spinLoc cfg l) ∈ s.posted → place = .flight peer
  unread : ∀ peer, s.spin peer (spinLoc cfg l) ≠ 0 → place = .unread peer
  woken : ∀ t, s.pc t = .woken l → place = .unread t.node
  unflagged : ∀ t, (s.pc t).unflagged = some l → s.flag t.node l = false
  handing : ∀ t, s.pc t = .handing l → s.flag t.node l = true
  handed : ∀ n, s.flag n l = true → cfg.handover = true ∧
    ((∃ t, t.node = n ∧ s.pc t = .holding l) ∨ ∃ u, u.node = n ∧ s.pc u = .waiting l)

structure Inv (cfg : Config) (s : State) (place : LockAddr → Place) : Prop where
  at_ : ∀ l, l.index < cfg.lockNR → InvAt cfg s l (place l)
  valid : ∀ t l, (s.pc t).lock = some l → t.node < cfg.nodes ∧ l.index < cfg.lockNR
  /-- Every wake-up is for some lock, and none is posted twice. -/
  posted : ∀ peer off, (peer, off) ∈ s.posted → ∃ l, l.index < cfg.lockNR ∧ off = spinLoc cfg l
  once : s.posted.Nodup
  sound : ∀ t, s.pc t ≠ .failed

/-! ### The word -/

theorem getLsbD_nodeBit {n i : Nat} (hi : i < 64) :
    (nodeBit n).getLsbD i = decide (i = n) := by
  simp [nodeBit, hi]
  grind

/-- Adding a clear bit sets it: nothing carries. -/
theorem add_nodeBit {w : BitVec 64} {n : Nat} (hclear : w.getLsbD n = false) :
    w + nodeBit n = w ||| nodeBit n := by
  refine BitVec.add_eq_or_of_and_eq_zero _ _ ?_
  apply BitVec.eq_of_getLsbD_eq
  intro i hi
  simp only [BitVec.getLsbD_and, getLsbD_nodeBit hi]
  grind

/-- Subtracting a set bit clears it: nothing is borrowed. -/
theorem sub_nodeBit {w : BitVec 64} {n : Nat} (hset : w.getLsbD n = true) :
    w + -nodeBit n = w &&& ~~~ nodeBit n := by
  have hsplit : (w &&& ~~~ nodeBit n) + nodeBit n = w := by
    rw [add_nodeBit]
    · apply BitVec.eq_of_getLsbD_eq
      intro i hi
      simp only [BitVec.getLsbD_or, BitVec.getLsbD_and, BitVec.getLsbD_not, getLsbD_nodeBit hi, hi]
      grind
    · simp only [BitVec.getLsbD_and, BitVec.getLsbD_not]
      by_cases hn : n < 64
      · simp [getLsbD_nodeBit hn]
      · simp [hn]
  calc w + -nodeBit n = (w &&& ~~~ nodeBit n) + nodeBit n + -nodeBit n := by rw [hsplit]
    _ = w &&& ~~~ nodeBit n := by rw [BitVec.add_assoc, BitVec.add_right_neg, BitVec.add_zero]

/-! ### Locks do not meet -/

/-- With `lockMetaSize = 8 * lockNR` no two locks share a spin location. -/
theorem spinLoc_inj {cfg : Config} (hsize : cfg.lockMetaSize = 8 * cfg.lockNR) {l l' : LockAddr}
    (hl : l.index < cfg.lockNR) (hl' : l'.index < cfg.lockNR)
    (h : spinLoc cfg l = spinLoc cfg l') : l = l' := by
  obtain ⟨n, i⟩ := l
  obtain ⟨n', i'⟩ := l'
  simp only [spinLoc, LockAddr.offset, hsize] at h hl hl'
  have hn : n = n' := by
    rcases Nat.lt_trichotomy n n' with hlt | heq | hlt
    · have hle := Nat.mul_le_mul_right (8 * cfg.lockNR) (Nat.succ_le_of_lt hlt)
      rw [Nat.succ_eq_add_one, Nat.add_mul] at hle
      omega
    · exact heq
    · have hle := Nat.mul_le_mul_right (8 * cfg.lockNR) (Nat.succ_le_of_lt hlt)
      rw [Nat.succ_eq_add_one, Nat.add_mul] at hle
      omega
  subst hn
  have hi : i = i' := by omega
  rw [hi]

/-- Two states that do not differ in anything lock `l` depends on. -/
structure AgreeAt (cfg : Config) (s s' : State) (l : LockAddr) : Prop where
  word : s'.word l = s.word l
  spin : ∀ n, s'.spin n (spinLoc cfg l) = s.spin n (spinLoc cfg l)
  posted : ∀ n, (n, spinLoc cfg l) ∈ s'.posted ↔ (n, spinLoc cfg l) ∈ s.posted
  flag : ∀ n, s'.flag n l = s.flag n l
  owner : ∀ n, s'.owner n l = s.owner n l
  /-- A thread that was busy elsewhere may by now wait for `l`. -/
  pc : ∀ t, s'.pc t = s.pc t ∨ ((s.pc t).lock ≠ some l ∧ (s'.pc t).admitted ≠ some l)

theorem lock_of_admitted {p : Pc} {l : LockAddr} (h : p.admitted = some l) : p.lock = some l := by
  cases p <;> simp_all [Pc.admitted, Pc.lock]

theorem admitted_of_holds {p : Pc} {l : LockAddr} (h : p.holds = some l) :
    p.admitted = some l := by
  cases p <;> simp_all [Pc.admitted, Pc.holds]

theorem admitted_of_waits {p : Pc} {l : LockAddr} (h : p.waits = some l) :
    p.admitted = some l := by
  cases p <;> simp_all [Pc.admitted, Pc.waits]

theorem admitted_of_unflagged {p : Pc} {l : LockAddr} (h : p.unflagged = some l) :
    p.admitted = some l := by
  cases p <;> simp_all [Pc.admitted, Pc.unflagged]

variable {cfg : Config} {s s' : State}

/-- What a thread's program counter says about `l` is the same in both states. -/
theorem AgreeAt.same {l : LockAddr} (h : AgreeAt cfg s s' l) {f : Pc → Option LockAddr}
    (hf : ∀ p, f p = some l → p.admitted = some l) (t : Thread) :
    f (s'.pc t) = some l ↔ f (s.pc t) = some l := by
  rcases h.pc t with heq | ⟨hne, hne'⟩
  · rw [heq]
  · exact ⟨fun hp => absurd (hf _ hp) hne', fun hp => absurd (lock_of_admitted (hf _ hp)) hne⟩

theorem AgreeAt.isPc {l : LockAddr} (h : AgreeAt cfg s s' l) {p : Pc} (hp : p.admitted = some l)
    (t : Thread) : s'.pc t = p ↔ s.pc t = p := by
  rcases h.pc t with heq | ⟨hne, hne'⟩
  · rw [heq]
  · exact ⟨fun he => absurd (he ▸ hp) hne', fun he => absurd (he ▸ lock_of_admitted hp) hne⟩

theorem AgreeAt.nodeHolds {l : LockAddr} (h : AgreeAt cfg s s' l) (n : Nat) :
    NodeHolds s' n l ↔ NodeHolds s n l := by
  simp only [NodeHolds, h.flag, h.same (fun _ => admitted_of_holds)]

theorem AgreeAt.nodeWaits {l : LockAddr} (h : AgreeAt cfg s s' l) (n : Nat) :
    NodeWaits s' n l ↔ NodeWaits s n l := by
  simp only [NodeWaits, h.same (fun _ => admitted_of_waits)]

theorem AgreeAt.waiting {l : LockAddr} (h : AgreeAt cfg s s' l) {u : Thread}
    (hu : s.pc u = .waiting l) : s'.pc u = .waiting l := by
  rcases h.pc u with heq | ⟨hne, -⟩
  · exact heq.trans hu
  · exact absurd (by rw [hu]; rfl) hne

theorem AgreeAt.invAt {l : LockAddr} {place : Place} (h : AgreeAt cfg s s' l)
    (hinv : InvAt cfg s l place) : InvAt cfg s' l place := by
  constructor
  case admitted =>
    intro t
    rw [h.same (fun _ hp => hp), h.owner]
    exact hinv.admitted t
  case ownerNode => intro n t; rw [h.owner]; exact hinv.ownerNode n t
  case bit => intro i; rw [h.word, h.nodeHolds, h.nodeWaits]; exact hinv.bit i
  case found =>
    have hfound := hinv.found
    cases place with
    | free => exact h.word.trans hfound
    | node n => exact (h.nodeHolds n).mpr hfound
    | leaving t p => exact ⟨(h.isPc rfl t).mpr hfound.1, (h.nodeWaits p).mpr hfound.2⟩
    | flight p => exact ⟨(h.posted p).mpr hfound.1, (h.nodeWaits p).mpr hfound.2⟩
    | unread p => exact ⟨by rw [h.spin]; exact hfound.1, (h.nodeWaits p).mpr hfound.2⟩
  case holds => intro n hn; exact hinv.holds n ((h.nodeHolds n).mp hn)
  case leaving => intro t p hp; exact hinv.leaving t p ((h.isPc rfl t).mp hp)
  case flight => intro p hp; exact hinv.flight p ((h.posted p).mp hp)
  case unread => intro p hp; exact hinv.unread p (by rwa [h.spin] at hp)
  case woken => intro t ht; exact hinv.woken t ((h.isPc rfl t).mp ht)
  case unflagged =>
    intro t ht
    rw [h.flag]
    exact hinv.unflagged t ((h.same (fun _ => admitted_of_unflagged) t).mp ht)
  case handing =>
    intro t ht
    rw [h.flag]
    exact hinv.handing t ((h.isPc rfl t).mp ht)
  case handed =>
    intro n hn
    rw [h.flag] at hn
    obtain ⟨hb, hor⟩ := hinv.handed n hn
    refine ⟨hb, ?_⟩
    rcases hor with ⟨t, htn, ht⟩ | ⟨u, hun, hu⟩
    · exact Or.inl ⟨t, htn, (h.isPc rfl t).mpr ht⟩
    · exact Or.inr ⟨u, hun, h.waiting hu⟩

/-! ### One thread moves

Whatever a thread does to lock `l` it does while its own node's local lock is not
anybody else's, so for the other nodes nothing changes, and for its own node the new
program counter and the new `hand_over` say everything.
-/

/-- `t` goes on to `p`, leaving `b` in `hand_over`; word, spin memory and wake-ups are open. -/
structure Moves (s s' : State) (t : Thread) (l : LockAddr) (p : Pc) (b : Bool) : Prop where
  pc : s'.pc = Function.update s.pc t p
  flag : ∀ n, s'.flag n l = if n = t.node then b else s.flag n l
  owner : ∀ n, s'.owner n l =
    if n = t.node then (if p.admitted = some l then some t else none) else s.owner n l
  /-- No other thread of the node is admitted. -/
  alone : ∀ u, u.node = t.node → (s.pc u).admitted = some l → u = t

section Moves

variable {t : Thread} {l : LockAddr} {p : Pc} {b : Bool} {place place' : Place}

theorem Moves.pc_self (m : Moves s s' t l p b) : s'.pc t = p := by
  rw [m.pc, Function.update_self]

theorem Moves.pc_other (m : Moves s s' t l p b) {u : Thread} (hu : u ≠ t) :
    s'.pc u = s.pc u := by
  rw [m.pc, Function.update_of_ne hu]

/-- In the node of `t` only `t` can be anywhere past the local lock. -/
theorem Moves.eq_of_admitted (m : Moves s s' t l p b) {u : Thread} (hu : u.node = t.node)
    (had : (s'.pc u).admitted = some l) : u = t := by
  by_cases hut : u = t
  · exact hut
  · rw [m.pc_other hut] at had
    exact m.alone u hu had

theorem Moves.nodeHolds_self (m : Moves s s' t l p b) :
    NodeHolds s' t.node l ↔ p.holds = some l ∨ b = true := by
  unfold NodeHolds
  rw [m.flag, if_pos rfl]
  refine or_congr_left ⟨?_, fun hp => ⟨t, rfl, by rwa [m.pc_self]⟩⟩
  rintro ⟨u, hu, hp⟩
  have hut := m.eq_of_admitted hu (admitted_of_holds hp)
  rwa [hut, m.pc_self] at hp

theorem Moves.nodeWaits_self (m : Moves s s' t l p b) :
    NodeWaits s' t.node l ↔ p.waits = some l := by
  unfold NodeWaits
  refine ⟨?_, fun hp => ⟨t, rfl, by rwa [m.pc_self]⟩⟩
  rintro ⟨u, hu, hp⟩
  have hut := m.eq_of_admitted hu (admitted_of_waits hp)
  rwa [hut, m.pc_self] at hp

theorem Moves.nodeHolds_other (m : Moves s s' t l p b) {n : Nat} (hn : n ≠ t.node) :
    NodeHolds s' n l ↔ NodeHolds s n l := by
  unfold NodeHolds
  rw [m.flag, if_neg hn]
  refine or_congr_left (exists_congr fun u => and_congr_right fun hu => ?_)
  rw [m.pc_other (by rintro rfl; exact hn hu.symm)]

theorem Moves.nodeWaits_other (m : Moves s s' t l p b) {n : Nat} (hn : n ≠ t.node) :
    NodeWaits s' n l ↔ NodeWaits s n l := by
  unfold NodeWaits
  refine exists_congr fun u => and_congr_right fun hu => ?_
  rw [m.pc_other (by rintro rfl; exact hn hu.symm)]

/-- The invariant after `t` has moved, from what it did to the shared words. -/
theorem InvAt.move (h : InvAt cfg s l place) (m : Moves s s' t l p b)
    (hbit : ∀ i, i < 64 → (s'.word l).getLsbD i =
      if i = t.node then decide (p.holds = some l ∨ b = true ∨ p.waits = some l)
      else (s.word l).getLsbD i)
    (hfound : At cfg s' l place')
    (hholds : p.holds = some l ∨ b = true → place' = .node t.node)
    (hleaving : ∀ peer, p = .wakePeer l peer → place' = .leaving t peer)
    (hwoken : p = .woken l → place' = .unread t.node)
    (hothers : (∀ n, n ≠ t.node → place = .node n → place' = .node n) ∧
      (∀ u peer, u ≠ t → place = .leaving u peer → place' = .leaving u peer) ∧
      (∀ n, n ≠ t.node → place = .unread n → place' = .unread n))
    (hflight : ∀ peer, (peer, spinLoc cfg l) ∈ s'.posted → place' = .flight peer)
    (hunread : ∀ peer, s'.spin peer (spinLoc cfg l) ≠ 0 → place' = .unread peer)
    (hunflagged : p.unflagged = some l → b = false)
    (hhanding : p = .handing l → b = true)
    (hhanded : b = true → cfg.handover = true ∧
      (p = .holding l ∨ ∃ u, u ≠ t ∧ u.node = t.node ∧ s.pc u = .waiting l)) :
    InvAt cfg s' l place' := by
  constructor
  case admitted =>
    intro u
    rw [m.owner]
    by_cases hut : u = t
    · subst hut
      rw [m.pc_self]
      grind
    · rw [m.pc_other hut]
      have := h.admitted u
      have := m.alone u
      grind
  case ownerNode =>
    intro n u
    rw [m.owner]
    have := h.ownerNode n u
    grind
  case bit =>
    intro i hi
    rw [hbit i hi]
    split
    · rename_i hit
      subst hit
      rw [m.nodeHolds_self, m.nodeWaits_self, decide_eq_true_eq, or_assoc]
    · rename_i hit
      rw [m.nodeHolds_other hit, m.nodeWaits_other hit]
      exact h.bit i hi
  case found => exact hfound
  case holds =>
    intro n hn
    by_cases hnt : n = t.node
    · subst hnt
      exact hholds (m.nodeHolds_self.mp hn)
    · exact hothers.1 n hnt (h.holds n ((m.nodeHolds_other hnt).mp hn))
  case leaving =>
    intro u peer hu
    by_cases hut : u = t
    · subst hut
      exact hleaving peer (m.pc_self ▸ hu)
    · exact hothers.2.1 u peer hut (h.leaving u peer (m.pc_other hut ▸ hu))
  case flight => exact hflight
  case unread => exact hunread
  case woken =>
    intro u hu
    by_cases hut : u = t
    · subst hut
      exact hwoken (m.pc_self ▸ hu)
    · refine hothers.2.2 u.node (fun hn => hut ?_) (h.woken u (m.pc_other hut ▸ hu))
      exact m.eq_of_admitted hn (by rw [hu]; rfl)
  case unflagged =>
    intro u hu
    rw [m.flag]
    by_cases hut : u = t
    · subst hut
      rw [if_pos rfl]
      exact hunflagged (m.pc_self ▸ hu)
    · have hun : u.node ≠ t.node := fun hn =>
        hut (m.eq_of_admitted hn (admitted_of_unflagged hu))
      rw [if_neg hun]
      exact h.unflagged u (m.pc_other hut ▸ hu)
  case handing =>
    intro u hu
    rw [m.flag]
    by_cases hut : u = t
    · subst hut
      rw [if_pos rfl]
      exact hhanding (m.pc_self ▸ hu)
    · have hun : u.node ≠ t.node := fun hn =>
        hut (m.eq_of_admitted hn (by rw [hu]; rfl))
      rw [if_neg hun]
      exact h.handing u (m.pc_other hut ▸ hu)
  case handed =>
    intro n hn
    rw [m.flag] at hn
    split at hn
    · rename_i hnt
      subst hnt
      obtain ⟨hb, hp | ⟨u, hut, hu, hpu⟩⟩ := hhanded hn
      · exact ⟨hb, Or.inl ⟨t, rfl, m.pc_self.trans hp⟩⟩
      · exact ⟨hb, Or.inr ⟨u, hu, (m.pc_other hut).trans hpu⟩⟩
    · rename_i hnt
      have hother : ∀ {u : Thread}, u.node = n → s'.pc u = s.pc u := fun hu =>
        m.pc_other (by rintro rfl; exact hnt hu.symm)
      obtain ⟨hb, hor⟩ := h.handed n hn
      refine ⟨hb, ?_⟩
      rcases hor with ⟨u, hu, hpu⟩ | ⟨u, hu, hpu⟩
      · exact Or.inl ⟨u, hu, (hother hu).trans hpu⟩
      · exact Or.inr ⟨u, hu, (hother hu).trans hpu⟩

end Moves

/-! ### Steps -/

/-- A step at lock `l` leaves everything another lock depends on. -/
structure Elsewhere (cfg : Config) (s s' : State) (l : LockAddr) : Prop where
  word : ∀ l', l' ≠ l → s'.word l' = s.word l'
  spin : ∀ n off, off ≠ spinLoc cfg l → s'.spin n off = s.spin n off
  posted : ∀ n off, off ≠ spinLoc cfg l → ((n, off) ∈ s'.posted ↔ (n, off) ∈ s.posted)
  flag : ∀ n l', l' ≠ l → s'.flag n l' = s.flag n l'
  owner : ∀ n l', l' ≠ l → s'.owner n l' = s.owner n l'

section Step

variable {t : Thread} {l : LockAddr} {p : Pc} {b : Bool} {place : LockAddr → Place} {dest : Place}

/-- A thread working on `l` has moved on, to `p`; the wake-ups may have changed for `l` only. -/
theorem Inv.run (hsize : cfg.lockMetaSize = 8 * cfg.lockNR) (h : Inv cfg s place)
    (hpc : (s.pc t).lock = some l) (m : Moves s s' t l p b) (he : Elsewhere cfg s s' l)
    (hp : p.lock = some l ∨ p = .idle) (hat : InvAt cfg s' l dest) (honce : s'.posted.Nodup) :
    Inv cfg s' (Function.update place l dest) := by
  have hvalid := h.valid t l hpc
  constructor
  case at_ =>
    intro l' hl'
    by_cases hll : l' = l
    · subst hll
      rwa [Function.update_self]
    · rw [Function.update_of_ne hll]
      have hoff : spinLoc cfg l' ≠ spinLoc cfg l := fun heq =>
        hll (spinLoc_inj hsize hl' hvalid.2 heq)
      refine AgreeAt.invAt ⟨he.word l' hll, fun n => he.spin n _ hoff,
        fun n => he.posted n _ hoff, fun n => he.flag n l' hll, fun n => he.owner n l' hll, ?_⟩
        (h.at_ l' hl')
      intro u
      by_cases hut : u = t
      · subst hut
        refine Or.inr ⟨?_, ?_⟩
        · rw [hpc]
          exact fun heq => hll (Option.some.inj heq).symm
        · rw [m.pc_self]
          intro had
          rcases hp with hp | rfl
          · exact hll (Option.some.inj ((lock_of_admitted had).symm.trans hp))
          · cases had
      · exact Or.inl (m.pc_other hut)
  case valid =>
    intro u l' hu
    by_cases hut : u = t
    · subst hut
      rw [m.pc_self] at hu
      rcases hp with hp | rfl
      · rw [hp] at hu
        cases hu
        exact hvalid
      · cases hu
    · exact h.valid u l' (m.pc_other hut ▸ hu)
  case posted =>
    intro peer off hmem
    by_cases hoff : off = spinLoc cfg l
    · exact ⟨l, hvalid.2, hoff⟩
    · exact h.posted peer off ((he.posted peer off hoff).mp hmem)
  case once => exact honce
  case sound =>
    intro u
    by_cases hut : u = t
    · subst hut
      rw [m.pc_self]
      rintro rfl
      rcases hp with hp | hp <;> cases hp
    · rw [m.pc_other hut]
      exact h.sound u

/-- In the node of an admitted thread no other thread is admitted. -/
theorem InvAt.alone {at_ : Place} (h : InvAt cfg s l at_) (ht : (s.pc t).admitted = some l) :
    ∀ u, u.node = t.node → (s.pc u).admitted = some l → u = t := by
  intro u hu had
  have hown := (h.admitted u).mp had
  rw [hu, (h.admitted t).mp ht] at hown
  exact (Option.some.inj hown).symm

/-- What `t`'s node is to the lock, as long as `t` is admitted. -/
theorem InvAt.node_of_admitted {at_ : Place} (h : InvAt cfg s l at_)
    (ht : (s.pc t).admitted = some l) :
    (NodeHolds s t.node l ↔ (s.pc t).holds = some l ∨ s.flag t.node l = true) ∧
    (NodeWaits s t.node l ↔ (s.pc t).waits = some l) := by
  have m : Moves s s t l (s.pc t) (s.flag t.node l) := by
    refine ⟨(Function.update_eq_self t s.pc).symm, fun n => ?_, fun n => ?_, h.alone ht⟩
    · split
      · rename_i hn; rw [hn]
      · rfl
    · have := (h.admitted t).mp ht
      rw [if_pos ht]
      split
      · rename_i hn; rw [hn, this]
      · rfl
  exact ⟨m.nodeHolds_self, m.nodeWaits_self⟩

/-- A lock that is not about to be moved by `t` is still found where it was. -/
theorem Moves.found {at_ : Place} (m : Moves s s' t l p b) (h : At cfg s l at_)
    (hword : at_ = .free → s'.word l = s.word l) (hspin : s'.spin = s.spin)
    (hposted : s'.posted = s.posted) (hholds : NodeHolds s t.node l → p.holds = some l ∨ b = true)
    (hwaits : NodeWaits s t.node l → p.waits = some l)
    (hleaving : ∀ peer, s.pc t ≠ .wakePeer l peer) : At cfg s' l at_ := by
  have hwait : ∀ {n}, NodeWaits s n l → NodeWaits s' n l := by
    intro n hn
    by_cases hnt : n = t.node
    · subst hnt
      exact m.nodeWaits_self.mpr (hwaits hn)
    · exact (m.nodeWaits_other hnt).mpr hn
  cases at_ with
  | free => exact (hword rfl).trans h
  | node n =>
      by_cases hnt : n = t.node
      · subst hnt
        exact m.nodeHolds_self.mpr (hholds h)
      · exact (m.nodeHolds_other hnt).mpr h
  | leaving u peer =>
      refine ⟨?_, hwait h.2⟩
      rw [m.pc_other (by rintro rfl; exact hleaving peer h.1)]
      exact h.1
  | flight peer => exact ⟨hposted ▸ h.1, hwait h.2⟩
  | unread peer => exact ⟨by rw [hspin]; exact h.1, hwait h.2⟩

/-- A step that shows on no shared word, with `t`'s node being to the lock what it was. -/
theorem InvAt.quiet {at_ : Place} (h : InvAt cfg s l at_) (m : Moves s s' t l p b)
    (hword : s'.word l = s.word l) (hspin : s'.spin = s.spin) (hposted : s'.posted = s.posted)
    (hholds : NodeHolds s t.node l ↔ p.holds = some l ∨ b = true)
    (hwaits : NodeWaits s t.node l ↔ p.waits = some l)
    (hpeer : ∀ peer, s.pc t ≠ .wakePeer l peer) (hpeer' : ∀ peer, p ≠ .wakePeer l peer)
    (hwoken : p = .woken l → at_ = .unread t.node)
    (hunflagged : p.unflagged = some l → b = false)
    (hhanding : p = .handing l → b = true)
    (hhanded : b = true → cfg.handover = true ∧
      (p = .holding l ∨ ∃ u, u ≠ t ∧ u.node = t.node ∧ s.pc u = .waiting l)) :
    InvAt cfg s' l at_ := by
  refine h.move m ?_ (m.found h.found (fun _ => hword) hspin hposted hholds.mp hwaits.mp hpeer)
    (fun hp => h.holds _ (hholds.mpr hp)) (fun peer hp => absurd hp (hpeer' peer)) hwoken
    ⟨fun _ _ hat => hat, fun _ _ _ hat => hat, fun _ _ hat => hat⟩
    (fun peer hp => h.flight peer (hposted ▸ hp)) (fun peer hp => h.unread peer (hspin ▸ hp))
    hunflagged hhanding hhanded
  intro i hi
  rw [hword]
  split
  · rename_i hit
    subst hit
    have hbit := h.bit t.node hi
    rw [hholds, hwaits, or_assoc] at hbit
    rw [Bool.eq_iff_iff, hbit, decide_eq_true_eq]
  · rfl

theorem Inv.start (h : Inv cfg s place) (hpc : s.pc t = .idle) (hnode : t.node < cfg.nodes)
    (hl : l.index < cfg.lockNR) : Inv cfg (s.setPc t (.waiting l)) place := by
  have hpc' : ∀ u, u ≠ t → (s.setPc t (.waiting l)).pc u = s.pc u := fun u hu => by
    simp [State.setPc, hu]
  have hself : (s.setPc t (.waiting l)).pc t = .waiting l := by simp [State.setPc]
  refine ⟨fun l' hl' => ?_, fun u l' hu => ?_, h.posted, h.once, fun u => ?_⟩
  · have hag : AgreeAt cfg s (s.setPc t (.waiting l)) l' := by
      refine ⟨rfl, fun _ => rfl, fun _ => Iff.rfl, fun _ => rfl, fun _ => rfl, fun u => ?_⟩
      by_cases hut : u = t
      · subst hut
        rw [hself, hpc]
        exact Or.inr ⟨by simp [Pc.lock], by simp [Pc.admitted]⟩
      · exact Or.inl (hpc' u hut)
    exact hag.invAt (h.at_ l' hl')
  · by_cases hut : u = t
    · subst hut
      rw [hself] at hu
      cases hu
      exact ⟨hnode, hl⟩
    · exact h.valid u l' (hpc' u hut ▸ hu)
  · by_cases hut : u = t
    · subst hut
      rw [hself]
      exact Pc.noConfusion
    · rw [hpc' u hut]
      exact h.sound u

theorem Elsewhere.setOwner_setPc (cfg : Config) (s : State) (t : Thread) (l : LockAddr)
    (o : Option Thread) (p : Pc) : Elsewhere cfg s ((s.setOwner t.node l o).setPc t p) l := by
  constructor <;> simp +contextual [State.setPc, State.setOwner]

theorem Elsewhere.setFlag_setPc (cfg : Config) (s : State) (t : Thread) (l : LockAddr)
    (b : Bool) (p : Pc) : Elsewhere cfg s ((s.setFlag t.node l b).setPc t p) l := by
  constructor <;> simp +contextual [State.setPc, State.setFlag]

/-- `t` acquires or releases the local lock. -/
theorem Moves.setOwner_setPc (halone : ∀ u, u.node = t.node → (s.pc u).admitted = some l → u = t) :
    Moves s ((s.setOwner t.node l (if p.admitted = some l then some t else none)).setPc t p) t l p
      (s.flag t.node l) := by
  refine ⟨rfl, fun n => ?_, fun n => ?_, halone⟩
  · by_cases hn : n = t.node
    · subst hn
      rw [if_pos rfl]
      rfl
    · rw [if_neg hn]
      rfl
  · simp [State.setPc, State.setOwner]

/-- `t` goes on within the local lock, whatever it does to `hand_over` and the shared words. -/
theorem InvAt.moves {at_ : Place} (h : InvAt cfg s l at_) (ht : (s.pc t).admitted = some l)
    (hp : p.admitted = some l) (hpc : s'.pc = Function.update s.pc t p)
    (howner : s'.owner = s.owner) (hflag : ∀ n, s'.flag n l = if n = t.node then b else s.flag n l) :
    Moves s s' t l p b := by
  refine ⟨hpc, hflag, fun n => ?_, h.alone ht⟩
  rw [howner, if_pos hp]
  by_cases hn : n = t.node
  · subst hn
    rw [if_pos rfl]
    exact (h.admitted t).mp ht
  · rw [if_neg hn]

/-- The local lock admits `t`, which owns the lock by handover or has to ask for it. -/
theorem Inv.admit (hsize : cfg.lockMetaSize = 8 * cfg.lockNR) (h : Inv cfg s place)
    (hpc : s.pc t = .waiting l) (hfree : s.owner t.node l = none)
    (hp : s.flag t.node l = true ∧ p = .holding l ∨ s.flag t.node l = false ∧ p = .faaAcquire l) :
    Inv cfg ((s.setOwner t.node l (some t)).setPc t p)
      (Function.update place l (place l)) := by
  have hat := h.at_ l (h.valid t l (by rw [hpc]; rfl)).2
  have hnone : ∀ u, u.node = t.node → (s.pc u).admitted ≠ some l := fun u hu had => by
    have hown := (hat.admitted u).mp had
    rw [hu, hfree] at hown
    cases hown
  have hholds : NodeHolds s t.node l ↔ s.flag t.node l = true :=
    or_iff_right fun ⟨u, hu, hp⟩ => hnone u hu (admitted_of_holds hp)
  have hwaits : ¬ NodeWaits s t.node l := fun ⟨u, hu, hp⟩ => hnone u hu (admitted_of_waits hp)
  have hhand := fun hf => (hat.handed t.node hf).1
  have m := Moves.setOwner_setPc (p := p) fun u hu had => absurd had (hnone u hu)
  rw [if_pos (by rcases hp with ⟨-, rfl⟩ | ⟨-, rfl⟩ <;> rfl)] at m
  have he := Elsewhere.setOwner_setPc cfg s t l (some t) p
  refine h.run hsize (by rw [hpc]; rfl) m he ?_ (hat.quiet m rfl rfl rfl ?_ ?_ ?_ ?_ ?_ ?_ ?_ ?_)
    h.once
  all_goals
    rcases hp with ⟨hf, rfl⟩ | ⟨hf, rfl⟩ <;>
      simp_all [Pc.holds, Pc.waits, Pc.unflagged, Pc.lock]

theorem Inv.node_lt (h : Inv cfg s place) (hl : l.index < cfg.lockNR) {n : Nat}
    (hn : NodeHolds s n l ∨ NodeWaits s n l) : n < 64 := by
  have hle : cfg.nodes ≤ 8 := cfg.nodes_le
  have hthread : ∀ {u}, (s.pc u).lock = some l → u.node < 64 := fun hu =>
    Nat.lt_of_lt_of_le (h.valid _ l hu).1 (Nat.le_trans hle (by decide))
  rcases hn with (⟨u, rfl, hu⟩ | hf) | ⟨u, rfl, hu⟩
  · exact hthread (lock_of_admitted (admitted_of_holds hu))
  · rcases ((h.at_ l hl).handed n hf).2 with ⟨u, rfl, hu⟩ | ⟨u, rfl, hu⟩
    · exact hthread (by rw [hu]; rfl)
    · exact hthread (by rw [hu]; rfl)
  · exact hthread (lock_of_admitted (admitted_of_waits hu))

/-- Nobody holds or waits exactly when the word is 0. -/
theorem Inv.free_iff (h : Inv cfg s place) (hl : l.index < cfg.lockNR) :
    s.word l = 0 ↔ place l = .free := by
  have hat := h.at_ l hl
  refine ⟨fun hw => ?_, fun hp => by have hf := hat.found; rwa [hp] at hf⟩
  have hno : ∀ n, ¬ (NodeHolds s n l ∨ NodeWaits s n l) := fun n hn => by
    have hb := (hat.bit n (h.node_lt hl hn)).mpr hn
    rw [hw] at hb
    simp at hb
  have hfound := hat.found
  cases hp : place l with
  | free => rfl
  | node n => rw [hp] at hfound; exact absurd (Or.inl hfound) (hno n)
  | leaving u peer => rw [hp] at hfound; exact absurd (Or.inr hfound.2) (hno peer)
  | flight peer => rw [hp] at hfound; exact absurd (Or.inr hfound.2) (hno peer)
  | unread peer => rw [hp] at hfound; exact absurd (Or.inr hfound.2) (hno peer)

/-- Before the fetch-and-add of `1 << nodeID` the bit is clear. -/
theorem Inv.bit_of_faaAcquire (h : Inv cfg s place) (hpc : s.pc t = .faaAcquire l) :
    t.node < 64 ∧ (s.word l).getLsbD t.node = false := by
  obtain ⟨hnode, hl⟩ := h.valid t l (by rw [hpc]; rfl)
  have hat := h.at_ l hl
  have ht : (s.pc t).admitted = some l := by rw [hpc]; rfl
  have h64 : t.node < 64 := by
    have : cfg.nodes ≤ 8 := cfg.nodes_le
    omega
  refine ⟨h64, ?_⟩
  obtain ⟨hh, hw⟩ := hat.node_of_admitted ht
  have hf := hat.unflagged t (by rw [hpc]; rfl)
  have hbit := hat.bit t.node h64
  rw [hh, hw, hpc, hf] at hbit
  simpa [Pc.holds, Pc.waits] using hbit

/-- The fetch-and-add of `1 << nodeID`: the lock was free, or it stays where it is. -/
theorem Inv.faaAcquire (hsize : cfg.lockMetaSize = 8 * cfg.lockNR) (h : Inv cfg s place)
    (hpc : s.pc t = .faaAcquire l) :
    ∃ dest, Inv cfg ({ s with word := Function.update s.word l (s.word l + nodeBit t.node) }.setPc t
      (if s.word l = 0 then .holding l else .spinning l)) (Function.update place l dest) := by
  have hl := (h.valid t l (by rw [hpc]; rfl)).2
  have hat := h.at_ l hl
  have ht : (s.pc t).admitted = some l := by rw [hpc]; rfl
  obtain ⟨hh, hw⟩ := hat.node_of_admitted ht
  have hf := hat.unflagged t (by rw [hpc]; rfl)
  obtain ⟨h64, hclear⟩ := h.bit_of_faaAcquire hpc
  have hfree := h.free_iff hl
  generalize hp : (if s.word l = 0 then Pc.holding l else Pc.spinning l) = p
  have hor : s.word l = 0 ∧ p = .holding l ∨ s.word l ≠ 0 ∧ p = .spinning l := by
    split at hp
    · exact Or.inl ⟨‹_›, hp.symm⟩
    · exact Or.inr ⟨‹_›, hp.symm⟩
  have m : Moves s ({ s with
      word := Function.update s.word l (s.word l + nodeBit t.node) }.setPc t p) t l p false := by
    refine hat.moves ht ?_ rfl rfl fun n => ?_
    · rcases hor with ⟨-, rfl⟩ | ⟨-, rfl⟩ <;> rfl
    · by_cases hn : n = t.node
      · subst hn
        rw [if_pos rfl]
        exact hf
      · rw [if_neg hn]
        rfl
  have he : Elsewhere cfg s ({ s with
      word := Function.update s.word l (s.word l + nodeBit t.node) }.setPc t p) l := by
    constructor <;> simp +contextual [State.setPc]
  have hbit : ∀ i, i < 64 → (({ s with
      word := Function.update s.word l (s.word l + nodeBit t.node) }.setPc t p).word l).getLsbD i =
      if i = t.node then decide (p.holds = some l ∨ false = true ∨ p.waits = some l)
      else (s.word l).getLsbD i := by
    intro i hi
    simp only [State.setPc, Function.update_self, add_nodeBit hclear, BitVec.getLsbD_or,
      getLsbD_nodeBit hi]
    rcases hor with ⟨-, rfl⟩ | ⟨-, rfl⟩ <;> by_cases hit : i = t.node <;>
      simp [hit, Pc.holds, Pc.waits]
  rcases hor with ⟨hzero, rfl⟩ | ⟨hzero, rfl⟩
  · have hplace := hfree.mp hzero
    refine ⟨.node t.node, h.run hsize (by rw [hpc]; rfl) m he (Or.inl rfl)
      (hat.move m hbit (m.nodeHolds_self.mpr (Or.inl rfl)) (fun _ => rfl) (by simp) (by simp)
        (by simp [hplace]) ?_ ?_ (by simp [Pc.unflagged]) (by simp) (by simp)) h.once⟩
    · intro peer hp
      have := hat.flight peer hp
      rw [hplace] at this
      cases this
    · intro peer hp
      have := hat.unread peer hp
      rw [hplace] at this
      cases this
  · have hplace : place l ≠ .free := fun hp => hzero (hfree.mpr hp)
    have hfound := m.found hat.found (fun hp => absurd hp hplace) rfl rfl
      (fun hn => by simpa [hpc, hf, Pc.holds] using hh.mp hn) (fun _ => rfl) (by simp [hpc])
    exact ⟨place l, h.run hsize (by rw [hpc]; rfl) m he (Or.inl rfl)
      (hat.move m hbit hfound (by simp [Pc.holds]) (by simp) (by simp)
        ⟨fun _ _ hat => hat, fun _ _ _ hat => hat, fun _ _ hat => hat⟩ hat.flight hat.unread
        (fun _ => rfl) (by simp) (by simp)) h.once⟩

/-- The loop of `DSM::spin_on` sees the wake-up. -/
theorem Inv.wake (hsize : cfg.lockMetaSize = 8 * cfg.lockNR) (h : Inv cfg s place)
    (hpc : s.pc t = .spinning l) (hspin : s.spin t.node (spinLoc cfg l) ≠ 0) :
    Inv cfg (s.setPc t (.woken l)) (Function.update place l (place l)) := by
  have hat := h.at_ l (h.valid t l (by rw [hpc]; rfl)).2
  have ht : (s.pc t).admitted = some l := by rw [hpc]; rfl
  have hf := hat.unflagged t (by rw [hpc]; rfl)
  obtain ⟨hh, hw⟩ := hat.node_of_admitted ht
  have m : Moves s (s.setPc t (.woken l)) t l (.woken l) false := by
    refine hat.moves ht rfl rfl rfl fun n => ?_
    by_cases hn : n = t.node
    · subst hn
      rw [if_pos rfl]
      exact hf
    · rw [if_neg hn]
      rfl
  have he : Elsewhere cfg s (s.setPc t (.woken l)) l :=
    ⟨fun _ _ => rfl, fun _ _ _ => rfl, fun _ _ _ => Iff.rfl, fun _ _ _ => rfl, fun _ _ _ => rfl⟩
  refine h.run hsize (by rw [hpc]; rfl) m he (Or.inl rfl)
    (hat.quiet m rfl rfl rfl ?_ ?_ ?_ ?_ (fun _ => hat.unread _ hspin) ?_ ?_ ?_) h.once
  all_goals simp_all [Pc.holds, Pc.waits]

/-- `*spin_loc = 0`: the wake-up is consumed and the node holds the lock. -/
theorem Inv.consume (hsize : cfg.lockMetaSize = 8 * cfg.lockNR) (h : Inv cfg s place)
    (hpc : s.pc t = .woken l) :
    Inv cfg ((s.setSpin t.node (spinLoc cfg l) 0).setPc t (.holding l))
      (Function.update place l (.node t.node)) := by
  have hat := h.at_ l (h.valid t l (by rw [hpc]; rfl)).2
  have ht : (s.pc t).admitted = some l := by rw [hpc]; rfl
  have hf := hat.unflagged t (by rw [hpc]; rfl)
  have hplace := hat.woken t hpc
  have m : Moves s ((s.setSpin t.node (spinLoc cfg l) 0).setPc t (.holding l)) t l
      (.holding l) false := by
    refine hat.moves ht rfl rfl rfl fun n => ?_
    by_cases hn : n = t.node
    · subst hn
      rw [if_pos rfl]
      exact hf
    · rw [if_neg hn]
      rfl
  have he : Elsewhere cfg s ((s.setSpin t.node (spinLoc cfg l) 0).setPc t (.holding l)) l := by
    constructor <;> simp +contextual [State.setPc, State.setSpin]
  have hwait := (hat.node_of_admitted ht).2.mpr (by rw [hpc]; rfl)
  refine h.run hsize (by rw [hpc]; rfl) m he (Or.inl rfl)
    (hat.move m ?_ (m.nodeHolds_self.mpr (Or.inl rfl)) (fun _ => rfl) (by simp) (by simp)
      ⟨by simp [hplace], by simp [hplace], fun n hn hp =>
        absurd (Place.unread.inj (hplace.symm.trans hp)).symm hn⟩
      ?_ ?_ (by simp [Pc.unflagged]) (by simp) (by simp)) h.once
  · intro i hi
    have hb := hat.bit i hi
    simp only [State.setPc, State.setSpin]
    by_cases hit : i = t.node
    · subst hit
      rw [if_pos rfl, hb.mpr (Or.inr hwait)]
      simp [Pc.holds]
    · rw [if_neg hit]
  · intro peer hp
    have := hat.flight peer hp
    rw [hplace] at this
    cases this
  · intro peer hp
    simp only [State.setPc, State.setSpin, and_true] at hp
    split at hp
    · exact absurd rfl hp
    · rename_i hpeer
      have := hat.unread peer hp
      rw [hplace] at this
      cases this
      exact absurd rfl hpeer

/-- `can_hand_over` decides. -/
theorem Inv.handOver (hsize : cfg.lockMetaSize = 8 * cfg.lockNR) (h : Inv cfg s place)
    (hpc : s.pc t = .holding l)
    (hp : b = false ∧ p = .faaRelease l ∨ b = true ∧ p = .handing l ∧ cfg.handover = true ∧
      ∃ u, u ≠ t ∧ u.node = t.node ∧ s.pc u = .waiting l) :
    Inv cfg ((s.setFlag t.node l b).setPc t p) (Function.update place l (place l)) := by
  have hat := h.at_ l (h.valid t l (by rw [hpc]; rfl)).2
  have ht : (s.pc t).admitted = some l := by rw [hpc]; rfl
  obtain ⟨hh, hw⟩ := hat.node_of_admitted ht
  have m : Moves s ((s.setFlag t.node l b).setPc t p) t l p b := by
    refine hat.moves ht ?_ rfl rfl fun n => by simp [State.setPc, State.setFlag]
    rcases hp with ⟨-, rfl⟩ | ⟨-, rfl, -⟩ <;> rfl
  refine h.run hsize (by rw [hpc]; rfl) m (Elsewhere.setFlag_setPc ..) ?_
    (hat.quiet m rfl rfl rfl ?_ ?_ ?_ ?_ ?_ ?_ ?_ ?_) h.once
  all_goals
    rcases hp with ⟨rfl, rfl⟩ | ⟨rfl, rfl, hb, hu⟩ <;>
      simp_all [Pc.holds, Pc.waits, Pc.unflagged, Pc.lock]

/-- `releases_local_lock` at the end of a release, with or without handover. -/
theorem Inv.leave (hsize : cfg.lockMetaSize = 8 * cfg.lockNR) (h : Inv cfg s place)
    (hpc : s.pc t = .handing l ∨ ∃ wait, s.pc t = .releasing l wait) :
    Inv cfg ((s.setOwner t.node l none).setPc t .idle) (Function.update place l (place l)) := by
  have hlock : (s.pc t).lock = some l := by rcases hpc with hpc | ⟨w, hpc⟩ <;> rw [hpc] <;> rfl
  have ht : (s.pc t).admitted = some l := by rcases hpc with hpc | ⟨w, hpc⟩ <;> rw [hpc] <;> rfl
  have hat := h.at_ l (h.valid t l hlock).2
  obtain ⟨hh, hw⟩ := hat.node_of_admitted ht
  have m := Moves.setOwner_setPc (p := .idle) (hat.alone ht)
  rw [if_neg (by simp [Pc.admitted])] at m
  have hwaiter : s.flag t.node l = true → cfg.handover = true ∧
      ∃ u, u ≠ t ∧ u.node = t.node ∧ s.pc u = .waiting l := by
    intro hf
    obtain ⟨hb, ⟨u, hu, hpu⟩ | ⟨u, hu, hpu⟩⟩ := hat.handed t.node hf
    · have hut := hat.alone ht u hu (by rw [hpu]; rfl)
      subst hut
      rcases hpc with hpc | ⟨w, hpc⟩ <;> rw [hpc] at hpu <;> cases hpu
    · refine ⟨hb, u, ?_, hu, hpu⟩
      rintro rfl
      rw [hpu] at ht
      cases ht
  refine h.run hsize hlock m (Elsewhere.setOwner_setPc ..) (Or.inr rfl)
    (hat.quiet m rfl rfl rfl ?_ ?_ ?_ (by simp) (by simp) (by simp [Pc.unflagged]) (by simp) ?_)
    h.once
  · rw [hh]
    rcases hpc with hpc | ⟨w, hpc⟩
    · have := hat.handing t hpc
      simp [hpc, this]
    · simp [hpc, Pc.holds]
  · rw [hw]
    rcases hpc with hpc | ⟨w, hpc⟩ <;> simp [hpc, Pc.waits]
  · rcases hpc with hpc | ⟨w, hpc⟩ <;> simp [hpc]
  · intro hf
    exact ⟨(hwaiter hf).1, Or.inr (hwaiter hf).2⟩

theorem mem_peerIndices {nodeID peer : Nat} {value : BitVec 64}
    (h : peer ∈ peerIndices nodeID value) :
    peer < 64 ∧ peer ≠ nodeID ∧ value.getLsbD peer = true := by
  have hmem := List.mem_of_mem_take h
  rw [List.mem_filter, List.mem_range] at hmem
  obtain ⟨h64, hbit⟩ := hmem
  rw [BitVec.getLsbD_and, BitVec.getLsbD_not, getLsbD_nodeBit h64] at hbit
  exact ⟨h64, by rintro rfl; simp at hbit, by simp_all⟩

/-- A word with the releasing node's bit that is not only that bit has a peer in it. -/
theorem peerIndices_ne_nil {nodeID : Nat} {value : BitVec 64}
    (hset : value.getLsbD nodeID = true) (hne : value ≠ nodeBit nodeID) :
    peerIndices nodeID value ≠ [] := by
  obtain ⟨i, h64, hi, hbit⟩ : ∃ i, i < 64 ∧ i ≠ nodeID ∧ value.getLsbD i = true := by
    by_contra hno
    refine hne (BitVec.eq_of_getLsbD_eq fun i h64 => ?_)
    rw [getLsbD_nodeBit h64]
    by_cases hi : i = nodeID
    · simp [hi, hset]
    · have : value.getLsbD i ≠ true := fun hb => hno ⟨i, h64, hi, hb⟩
      simp [hi, this]
  have hmem : i ∈ (List.range 64).filter fun i => (value &&& ~~~ nodeBit nodeID).getLsbD i := by
    rw [List.mem_filter, List.mem_range, BitVec.getLsbD_and, BitVec.getLsbD_not,
      getLsbD_nodeBit h64]
    simp [h64, hi, hbit]
  intro hnil
  rcases List.take_eq_nil_iff.mp hnil with h0 | hnil
  · cases h0
  · rw [hnil] at hmem
    cases hmem

/-- Before the fetch-and-add of `-(1 << nodeID)` the bit is set. -/
theorem Inv.bit_of_faaRelease (h : Inv cfg s place) (hpc : s.pc t = .faaRelease l) :
    t.node < 64 ∧ (s.word l).getLsbD t.node = true ∧ place l = .node t.node := by
  obtain ⟨hnode, hl⟩ := h.valid t l (by rw [hpc]; rfl)
  have h64 : t.node < 64 := by
    have : cfg.nodes ≤ 8 := cfg.nodes_le
    omega
  have hholds : NodeHolds s t.node l := Or.inl ⟨t, rfl, by rw [hpc]; rfl⟩
  exact ⟨h64, ((h.at_ l hl).bit _ h64).mpr (Or.inl hholds), (h.at_ l hl).holds _ hholds⟩

/-- A bit a releasing thread sees set besides its own is a waiting node's. -/
theorem Inv.peer_waits (h : Inv cfg s place) (hpc : s.pc t = .faaRelease l) {peer : Nat}
    (hpeer : peer ∈ peerIndices t.node (s.word l)) : peer ≠ t.node ∧ NodeWaits s peer l := by
  obtain ⟨h64, hne, hbit⟩ := mem_peerIndices hpeer
  have hat := h.at_ l (h.valid t l (by rw [hpc]; rfl)).2
  refine ⟨hne, ((hat.bit peer h64).mp hbit).resolve_left fun hh => hne ?_⟩
  exact Place.node.inj ((hat.holds peer hh).symm.trans (h.bit_of_faaRelease hpc).2.2)

/-- The fetch-and-add of `-(1 << nodeID)`: the lock is free, or a waiting peer was drawn. -/
theorem Inv.faaRelease (hsize : cfg.lockMetaSize = 8 * cfg.lockNR) (h : Inv cfg s place)
    (hpc : s.pc t = .faaRelease l)
    (hp : s.word l = nodeBit t.node ∧ dest = .free ∧ p = .releasing l none ∨
      ∃ peer ∈ peerIndices t.node (s.word l), dest = .leaving t peer ∧ p = .wakePeer l peer) :
    Inv cfg ({ s with word := Function.update s.word l (s.word l + -nodeBit t.node) }.setPc t p)
      (Function.update place l dest) := by
  have hat := h.at_ l (h.valid t l (by rw [hpc]; rfl)).2
  have ht : (s.pc t).admitted = some l := by rw [hpc]; rfl
  have hf := hat.unflagged t (by rw [hpc]; rfl)
  obtain ⟨h64, hset, hplace⟩ := h.bit_of_faaRelease hpc
  have m : Moves s ({ s with
      word := Function.update s.word l (s.word l + -nodeBit t.node) }.setPc t p) t l p false := by
    refine hat.moves ht ?_ rfl rfl fun n => ?_
    · rcases hp with ⟨-, -, rfl⟩ | ⟨peer, -, -, rfl⟩ <;> rfl
    · by_cases hn : n = t.node
      · subst hn
        rw [if_pos rfl]
        exact hf
      · rw [if_neg hn]
        rfl
  have he : Elsewhere cfg s ({ s with
      word := Function.update s.word l (s.word l + -nodeBit t.node) }.setPc t p) l := by
    constructor <;> simp +contextual [State.setPc]
  have hno : p.holds ≠ some l ∧ p.waits ≠ some l := by
    rcases hp with ⟨-, -, rfl⟩ | ⟨peer, -, -, rfl⟩ <;> simp [Pc.holds, Pc.waits]
  have hbit : ∀ i, i < 64 → (({ s with
      word := Function.update s.word l (s.word l + -nodeBit t.node) }.setPc t p).word l).getLsbD i =
      if i = t.node then decide (p.holds = some l ∨ false = true ∨ p.waits = some l)
      else (s.word l).getLsbD i := by
    intro i hi
    simp only [State.setPc, Function.update_self, sub_nodeBit hset, BitVec.getLsbD_and,
      BitVec.getLsbD_not, getLsbD_nodeBit hi]
    by_cases hit : i = t.node <;> simp [hit, hno, hi]
  refine h.run hsize (by rw [hpc]; rfl) m he ?_
    (hat.move m hbit ?_ (by simp [hno]) ?_ ?_
      ⟨fun n hn hp => absurd (Place.node.inj (hplace.symm.trans hp)).symm hn, by simp [hplace],
        by simp [hplace]⟩ ?_ ?_ (by simp) ?_ (by simp)) h.once
  · rcases hp with ⟨-, -, rfl⟩ | ⟨peer, -, -, rfl⟩ <;> exact Or.inl rfl
  · rcases hp with ⟨hw, rfl, rfl⟩ | ⟨peer, hpeer, rfl, rfl⟩
    · show Function.update s.word l (s.word l + -nodeBit t.node) l = 0
      rw [Function.update_self, hw]
      exact BitVec.add_right_neg _
    · obtain ⟨hne, hwaits⟩ := h.peer_waits hpc hpeer
      exact ⟨m.pc_self, (m.nodeWaits_other hne).mpr hwaits⟩
  · rintro peer' rfl
    rcases hp with ⟨-, -, hp⟩ | ⟨peer, -, rfl, hp⟩ <;> cases hp
    rfl
  · rintro rfl
    rcases hp with ⟨-, -, hp⟩ | ⟨peer, -, rfl, hp⟩ <;> cases hp
  · intro peer hmem
    have := hat.flight peer hmem
    rw [hplace] at this
    cases this
  · intro peer hmem
    have := hat.unread peer hmem
    rw [hplace] at this
    cases this
  · rintro rfl
    rcases hp with ⟨-, -, hp⟩ | ⟨peer, -, rfl, hp⟩ <;> cases hp

/-- The wake-up is posted. -/
theorem Inv.post (hsize : cfg.lockMetaSize = 8 * cfg.lockNR) (h : Inv cfg s place) {peer : Nat}
    (hpc : s.pc t = .wakePeer l peer) (wait : Option (Nat × Nat)) :
    Inv cfg ({ s with posted := (peer, spinLoc cfg l) :: s.posted }.setPc t (.releasing l wait))
      (Function.update place l (.flight peer)) := by
  have hat := h.at_ l (h.valid t l (by rw [hpc]; rfl)).2
  have ht : (s.pc t).admitted = some l := by rw [hpc]; rfl
  have hf := hat.unflagged t (by rw [hpc]; rfl)
  have hplace := hat.leaving t peer hpc
  obtain ⟨hh, hw⟩ := hat.node_of_admitted ht
  have hnone : ∀ n, (n, spinLoc cfg l) ∉ s.posted := fun n hmem => by
    have := hat.flight n hmem
    rw [hplace] at this
    cases this
  have m : Moves s ({ s with posted := (peer, spinLoc cfg l) :: s.posted }.setPc t
      (.releasing l wait)) t l (.releasing l wait) false := by
    refine hat.moves ht rfl rfl rfl fun n => ?_
    by_cases hn : n = t.node
    · subst hn
      rw [if_pos rfl]
      exact hf
    · rw [if_neg hn]
      rfl
  have he : Elsewhere cfg s ({ s with posted := (peer, spinLoc cfg l) :: s.posted }.setPc t
      (.releasing l wait)) l := by
    constructor <;> simp +contextual [State.setPc]
  have hwaits : NodeWaits s peer l := by
    have hfound := hat.found
    rw [hplace] at hfound
    exact hfound.2
  have hne : peer ≠ t.node := by
    rintro rfl
    simpa [hpc, Pc.waits] using hw.mp hwaits
  refine h.run hsize (by rw [hpc]; rfl) m he (Or.inl rfl)
    (hat.move m ?_ ⟨List.mem_cons_self .., (m.nodeWaits_other hne).mpr hwaits⟩ (by simp [Pc.holds])
      (by simp) (by simp) ⟨by simp [hplace], fun u n hu hp =>
        absurd (Place.leaving.inj (hplace.symm.trans hp)).1.symm hu, by simp [hplace]⟩
      ?_ ?_ (fun _ => rfl) (by simp) (by simp))
    (List.nodup_cons.mpr ⟨hnone peer, h.once⟩)
  · intro i hi
    have hb := hat.bit i hi
    simp only [State.setPc]
    by_cases hit : i = t.node
    · subst hit
      rw [hh, hw] at hb
      simpa [hpc, hf, Pc.holds, Pc.waits] using hb
    · rw [if_neg hit]
  · intro n hmem
    rcases List.mem_cons.mp hmem with heq | hmem
    · cases heq
      rfl
    · exact absurd hmem (hnone n)
  · intro n hn
    have := hat.unread n hn
    rw [hplace] at this
    cases this

/-- A posted wake-up is executed. -/
theorem Inv.land (hsize : cfg.lockMetaSize = 8 * cfg.lockNR) (h : Inv cfg s place)
    {peer off : Nat} (hmem : (peer, off) ∈ s.posted) :
    ∃ l, Inv cfg { s.setSpin peer off 1 with posted := s.posted.erase (peer, off) }
      (Function.update place l (.unread peer)) := by
  obtain ⟨l, hl, rfl⟩ := h.posted peer off hmem
  have hat := h.at_ l hl
  have hplace := hat.flight peer hmem
  have hwaits : NodeWaits s peer l := by
    have hfound := hat.found
    rw [hplace] at hfound
    exact hfound.2
  have hat' : InvAt cfg { s.setSpin peer (spinLoc cfg l) 1 with
      posted := s.posted.erase (peer, spinLoc cfg l) } l (.unread peer) := by
    refine ⟨hat.admitted, hat.ownerNode, hat.bit, ⟨?_, hwaits⟩, ?_, ?_, ?_, ?_, ?_,
      hat.unflagged, hat.handing, hat.handed⟩
    · simp [State.setSpin]
    · intro n hn
      have := hat.holds n hn
      rw [hplace] at this
      cases this
    · intro t n hn
      have := hat.leaving t n hn
      rw [hplace] at this
      cases this
    · intro n hn
      have hin := h.once.mem_erase_iff.mp hn
      have := hat.flight n hin.2
      rw [hplace] at this
      cases this
      exact absurd rfl hin.1
    · intro n hn
      by_cases hp : n = peer
      · rw [hp]
      · have := hat.unread n (by simpa [State.setSpin, hp] using hn)
        rw [hplace] at this
        cases this
    · intro t htw
      have := hat.woken t htw
      rw [hplace] at this
      cases this
  refine ⟨l, ⟨fun l' hl' => ?_, h.valid, fun n off hn => h.posted n off (List.mem_of_mem_erase hn),
    h.once.erase _, h.sound⟩⟩
  by_cases hll : l' = l
  · subst hll
    rwa [Function.update_self]
  · rw [Function.update_of_ne hll]
    have hoff : spinLoc cfg l' ≠ spinLoc cfg l := fun heq => hll (spinLoc_inj hsize hl' hl heq)
    have hag : AgreeAt cfg s { s.setSpin peer (spinLoc cfg l) 1 with
        posted := s.posted.erase (peer, spinLoc cfg l) } l' := by
      refine ⟨rfl, fun n => ?_, fun n => ?_, fun _ => rfl, fun _ => rfl, fun _ => Or.inl rfl⟩
      · simp [State.setSpin, hoff]
      · rw [h.once.mem_erase_iff]
        simp [hoff]
    exact hag.invAt (h.at_ l' hl')

end Step

theorem inv_init (cfg : Config) : Inv cfg State.init fun _ => .free := by
  have hholds : ∀ n l, ¬ NodeHolds State.init n l := by
    rintro n l (⟨t, -, ht⟩ | hf)
    · cases ht
    · cases hf
  have hwaits : ∀ n l, ¬ NodeWaits State.init n l := by
    rintro n l ⟨t, -, ht⟩
    cases ht
  refine ⟨fun l _ => ?_, ?_, ?_, List.nodup_nil, ?_⟩
  · constructor
    case found => rfl
    case bit =>
      intro i _
      have hno : ¬ (NodeHolds State.init i l ∨ NodeWaits State.init i l) := fun hn =>
        hn.elim (hholds i l) (hwaits i l)
      simp [State.init] at hno ⊢
      exact hno
    case holds => exact fun n hn => absurd hn (hholds n l)
    all_goals simp [State.init, Pc.admitted, Pc.unflagged]
  all_goals simp [State.init, Pc.lock]

theorem Inv.step {place : LockAddr → Place} (hsize : cfg.lockMetaSize = 8 * cfg.lockNR)
    (h : Inv cfg s place) {a : Action} (hstep : step cfg s a = some s') :
    ∃ place', Inv cfg s' place' := by
  cases a with
  | start t l =>
      simp only [RandFaa.step] at hstep
      split at hstep
      · rename_i hpc
        split at hstep
        · rename_i hok
          cases hstep
          exact ⟨place, h.start hpc hok.1 hok.2⟩
        · cases hstep
      · cases hstep
  | run t waiter r sync =>
      simp only [RandFaa.step, runThread] at hstep
      cases hpc : s.pc t with
      | idle => simp [hpc] at hstep
      | failed => simp [hpc] at hstep
      | waiting l =>
          simp only [hpc] at hstep
          split at hstep
          · rename_i hfree
            cases hstep
            refine ⟨_, h.admit hsize hpc hfree ?_⟩
            have hhand := fun hf =>
              ((h.at_ l (h.valid t l (by rw [hpc]; rfl)).2).handed t.node hf).1
            by_cases hf : s.flag t.node l = true
            · exact Or.inl ⟨hf, by simp [hf, hhand hf]⟩
            · exact Or.inr ⟨by simpa using hf, by simp [hf]⟩
          · cases hstep
      | faaAcquire l =>
          simp only [hpc] at hstep
          cases hstep
          obtain ⟨dest, hinv⟩ := h.faaAcquire hsize hpc
          exact ⟨_, hinv⟩
      | spinning l =>
          simp only [hpc] at hstep
          split at hstep
          · cases hstep
            exact ⟨place, h⟩
          · rename_i hspin
            cases hstep
            exact ⟨_, h.wake hsize hpc hspin⟩
      | woken l =>
          simp only [hpc] at hstep
          cases hstep
          exact ⟨_, h.consume hsize hpc⟩
      | holding l =>
          simp only [hpc] at hstep
          split at hstep
          · rename_i u
            split at hstep
            · rename_i hu
              cases hstep
              exact ⟨_, h.handOver hsize hpc (Or.inr ⟨rfl, rfl, hu.1, u, hu.2⟩)⟩
            · cases hstep
          · cases hstep
            exact ⟨_, h.handOver hsize hpc (Or.inl ⟨rfl, rfl⟩)⟩
      | handing l =>
          simp only [hpc] at hstep
          cases hstep
          exact ⟨_, h.leave hsize (Or.inl hpc)⟩
      | faaRelease l =>
          simp only [hpc, RandFaa.faaRelease] at hstep
          obtain ⟨-, hset, -⟩ := h.bit_of_faaRelease hpc
          split at hstep
          · rename_i hown
            cases hstep
            exact ⟨_, h.faaRelease hsize hpc (Or.inl ⟨hown, rfl, rfl⟩)⟩
          · rename_i hown
            rw [if_neg (peerIndices_ne_nil hset hown)] at hstep
            split at hstep
            · cases hstep
            · rename_i peer hget
              have hmem := List.mem_of_getElem? hget
              rw [if_pos (h.peer_waits hpc hmem).1] at hstep
              cases hstep
              exact ⟨_, h.faaRelease hsize hpc (Or.inr ⟨peer, hmem, rfl, rfl⟩)⟩
      | wakePeer l peer =>
          simp only [hpc] at hstep
          cases hstep
          exact ⟨_, h.post hsize hpc _⟩
      | releasing l wait =>
          simp only [hpc] at hstep
          split at hstep
          · cases hstep
          · cases hstep
            exact ⟨_, h.leave hsize (Or.inr ⟨wait, hpc⟩)⟩
  | land peer off =>
      simp only [RandFaa.step] at hstep
      split at hstep
      · rename_i hmem
        cases hstep
        obtain ⟨l, hinv⟩ := h.land hsize hmem
        exact ⟨_, hinv⟩
      · cases hstep

theorem inv_of_reachable (hsize : cfg.lockMetaSize = 8 * cfg.lockNR)
    (h : (machine cfg).Reachable s) : ∃ place, Inv cfg s place := by
  refine h.invariant (I := fun s => ∃ place, Inv cfg s place) ?_ ?_
  · rintro s rfl
    exact ⟨_, inv_init cfg⟩
  · rintro s a s' ⟨place, hinv⟩ _ hstep
    exact hinv.step hsize hstep

/-! ### The protocol -/

/-- A wake-up for lock `l` addressed to node `peer` is in flight, or has arrived unread. -/
def Wakeup (cfg : Config) (s : State) (l : LockAddr) (peer : Nat) : Prop :=
  (peer, spinLoc cfg l) ∈ s.posted ∨ s.spin peer (spinLoc cfg l) ≠ 0

/-- What the lock word, the spin locations and the threads have to do with each other. -/
structure Protocol (cfg : Config) (s : State) (l : LockAddr) : Prop where
  oneNode : ∀ n n', NodeHolds s n l → NodeHolds s n' l → n = n'
  oneThread : ∀ t u, (s.pc t).holds = some l → (s.pc u).holds = some l → t = u
  bit : ∀ i, i < 64 → ((s.word l).getLsbD i = true ↔ NodeHolds s i l ∨ NodeWaits s i l)
  /-- A lock being handed over is still wanted by a thread in the node's local lock. -/
  handed : ∀ n, s.flag n l = true →
    ∃ t, t.node = n ∧ (s.pc t = .holding l ∨ s.pc t = .waiting l)
  /-- The fetch-and-add of an arriving thread sets a clear bit, so nothing carries. -/
  clear : ∀ t, s.pc t = .faaAcquire l → (s.word l).getLsbD t.node = false
  /-- The one of a releasing thread clears a set bit, so nothing is borrowed. -/
  set : ∀ t, s.pc t = .faaRelease l → (s.word l).getLsbD t.node = true
  oneWakeup : ∀ n n', Wakeup cfg s l n → Wakeup cfg s l n' → n = n'
  /-- Of the one wake-up there is one copy. -/
  oneCopy : s.posted.Nodup ∧
    ∀ n, (n, spinLoc cfg l) ∈ s.posted → s.spin n (spinLoc cfg l) = 0
  toWaiter : ∀ n, Wakeup cfg s l n → NodeWaits s n l ∧ ∀ n', ¬ NodeHolds s n' l
  /-- A thread about to consume a wake-up consumes its own. -/
  consumed : ∀ t, s.pc t = .woken l → s.spin t.node (spinLoc cfg l) ≠ 0
  /-- A waiting node will hear of the lock: it is held, being given away, or on its way. -/
  notLost : ∀ n, NodeWaits s n l → (∃ n', NodeHolds s n' l) ∨
    (∃ t peer, s.pc t = .wakePeer l peer ∧ NodeWaits s peer l) ∨ ∃ peer, Wakeup cfg s l peer
  /-- `randNodeID` finds a set bit, and whichever it draws is another node that waits. -/
  peer : ∀ t, s.pc t = .faaRelease l → s.word l ≠ nodeBit t.node →
    peerIndices t.node (s.word l) ≠ [] ∧
    ∀ n ∈ peerIndices t.node (s.word l), n ≠ t.node ∧ NodeWaits s n l

theorem Inv.protocol {place : LockAddr → Place} (h : Inv cfg s place) {l : LockAddr}
    (hl : l.index < cfg.lockNR) : Protocol cfg s l := by
  have hat := h.at_ l hl
  have hwake : ∀ n, Wakeup cfg s l n → place l = .flight n ∨ place l = .unread n := by
    rintro n (hn | hn)
    · exact Or.inl (hat.flight n hn)
    · exact Or.inr (hat.unread n hn)
  constructor
  case oneNode =>
    intro n n' hn hn'
    exact Place.node.inj ((hat.holds n hn).symm.trans (hat.holds n' hn'))
  case oneThread =>
    intro t u ht hu
    have hnode := Place.node.inj ((hat.holds _ (Or.inl ⟨t, rfl, ht⟩)).symm.trans
      (hat.holds _ (Or.inl ⟨u, rfl, hu⟩)))
    exact hat.alone (admitted_of_holds hu) t hnode (admitted_of_holds ht)
  case bit => exact hat.bit
  case handed =>
    intro n hn
    rcases (hat.handed n hn).2 with ⟨t, ht, hp⟩ | ⟨t, ht, hp⟩
    · exact ⟨t, ht, Or.inl hp⟩
    · exact ⟨t, ht, Or.inr hp⟩
  case clear => exact fun t ht => (h.bit_of_faaAcquire ht).2
  case set => exact fun t ht => (h.bit_of_faaRelease ht).2.1
  case oneWakeup =>
    intro n n' hn hn'
    have hp := hwake n hn
    have hp' := hwake n' hn'
    grind
  case oneCopy =>
    refine ⟨h.once, fun n hn => ?_⟩
    by_contra hs
    have hp := hat.unread n hs
    rw [hat.flight n hn] at hp
    cases hp
  case toWaiter =>
    intro n hn
    have hfound := hat.found
    rcases hwake n hn with hp | hp <;> rw [hp] at hfound
    all_goals
      refine ⟨hfound.2, fun n' hn' => ?_⟩
      have := hat.holds n' hn'
      rw [hp] at this
      cases this
  case consumed =>
    intro t ht
    have hfound := hat.found
    rw [hat.woken t ht] at hfound
    exact hfound.1
  case notLost =>
    intro n hn
    have hfound := hat.found
    cases hp : place l with
    | free =>
        have hlt := h.node_lt hl (Or.inr hn)
        have hb := (hat.bit n hlt).mpr (Or.inr hn)
        rw [(h.free_iff hl).mpr hp] at hb
        simp at hb
    | node n' => rw [hp] at hfound; exact Or.inl ⟨n', hfound⟩
    | leaving t peer => rw [hp] at hfound; exact Or.inr (Or.inl ⟨t, peer, hfound⟩)
    | flight peer => rw [hp] at hfound; exact Or.inr (Or.inr ⟨peer, Or.inl hfound.1⟩)
    | unread peer => rw [hp] at hfound; exact Or.inr (Or.inr ⟨peer, Or.inr hfound.1⟩)
  case peer =>
    intro t ht hne
    exact ⟨peerIndices_ne_nil (h.bit_of_faaRelease ht).2.1 hne, fun n hn => h.peer_waits ht hn⟩

/--
**The `RAND_FAA` protocol.**  However the threads of at most `MAX_MACHINE` nodes and
the wake-ups between them interleave, the lock has one holder, the word is the set of
the nodes that hold or wait, the one wake-up goes to a waiting node while nobody
holds, and neither assertion about the drawn peer fails.
-/
theorem rand_faa_protocol (hsize : cfg.lockMetaSize = 8 * cfg.lockNR)
    (h : (machine cfg).Reachable s) :
    (∀ l, l.index < cfg.lockNR → Protocol cfg s l) ∧ ∀ t, s.pc t ≠ .failed := by
  obtain ⟨place, hinv⟩ := inv_of_reachable hsize h
  exact ⟨fun l hl => hinv.protocol hl, hinv.sound⟩

/-- Two nodes, four locks. -/
def twoNodes : Config := ⟨2, by decide, 4, 32, true⟩

/-- Node 1 spins on lock 3 while node 0 holds it, and node 0 gives it to node 1. -/
def wakeupRun : List Action :=
  [.start ⟨0, 0⟩ ⟨0, 3⟩, .run ⟨0, 0⟩ none 0 false, .run ⟨0, 0⟩ none 0 false,
    .start ⟨1, 0⟩ ⟨0, 3⟩, .run ⟨1, 0⟩ none 0 false, .run ⟨1, 0⟩ none 0 false,
    .run ⟨0, 0⟩ none 0 false, .run ⟨0, 0⟩ none 0 false, .run ⟨0, 0⟩ none 0 false]

theorem rand_faa_protocol_wakeup : ∃ s,
    (machine twoNodes).exec State.init wakeupRun = some s ∧ s.posted = [(1, 24)] ∧
    (∀ l, l.index < 4 → Protocol twoNodes s l) ∧ ∀ t, s.pc t ≠ .failed := by
  refine ⟨_, rfl, rfl, ?_⟩
  have hreach : (machine twoNodes).Path _ State.init _ := System.path_of_exec wakeupRun rfl
  exact rand_faa_protocol rfl ⟨_, rfl, hreach⟩

end Dal.RandFaa
