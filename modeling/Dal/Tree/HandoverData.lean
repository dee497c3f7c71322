/-
The page that is handed over with a lock: `lock_and_read_page`, `unlock_addr` and
`write_page_and_unlock` in the builds with `HANDOVER_DATA`.

A holder that hands its lock to another thread of its node does not write its page back.
It leaves the buffer, the page's address and level, and the number `wb` of modifications
that are not written back in the `LocalLockNode`; the next holder takes the page from
there if it is the one it wants, and writes it back first if it is another one.

One lock is modelled, under the threads of one node.  The lock modules show that its
holders follow one another, so a holder takes two steps: it locks and reads, and it
finishes with the outcome that the tree functions compute from the page it read.  While
the node does not own the lock, other nodes change the pages it guards.  `reuse` is the
thread that left the buffer using it for something else.

`ideal` and `unwritten` are read by no step.  `ideal` is the memory of the build that
writes every modification back before the local lock is released, run along from the
moment the lock is taken from the memory node; `unwritten` lists the modifications of
each page that no write has carried to the memory node, the last one first.
-/
import Dal.Tree.Machine

namespace Dal.HandoverData

open Dal.Tree (Op Task Config)

/-- The fields of `LocalLockNode` that travel with the lock. -/
structure Record where
  /-- The page in the buffer `page_buffer` points at, `none` for `nullptr`. -/
  pageBuffer : Option Page
  pageAddr : GlobalAddress
  level : Nat
  wb : Nat
  safe : Bool

/-- As `Tree::Tree` leaves them. -/
def Record.init : Record := ⟨none, .Null, 0, 0, false⟩

/-- A call of `leaf_page_store`, `leaf_page_del` or `internal_page_store` on page `p`. -/
structure Call where
  op : Op
  task : Task
  p : GlobalAddress

/-- What a modification is of: one record of a leaf, or the page. -/
inductive Change
  | entry (i : Nat)
  | whole
  deriving DecidableEq, Repr

inductive Phase
  /-- The local lock is free, with its `hand_over`. -/
  | free (handOver : Bool)
  /-- `lock_and_read_page` has returned with the page in the holder's buffer. -/
  | holding (call : Call) (page : Page)
  /-- An assertion failed, or a null pointer was followed. -/
  | failed

structure State where
  mem : GlobalAddress → Option Page
  ln : Record
  phase : Phase
  ideal : GlobalAddress → Option Page
  unwritten : GlobalAddress → List Change

def State.init (mem : GlobalAddress → Option Page) : State where
  mem := mem
  ln := .init
  phase := .free false
  ideal := mem
  unwritten := fun _ => []

inductive Action
  | lockAndRead (call : Call)
  /-- The holder goes on to the release: `fresh` is what `dsm->alloc` returns, `handOver` what
  `can_hand_over` does. -/
  | finish (fresh : GlobalAddress) (handOver : Bool)
  /-- A page is written that the lock does not guard, or that is new, or while another node may
  have the lock. -/
  | elsewhere (a : GlobalAddress) (page : Page)
  /-- The thread that left the buffer writes something else into it. -/
  | reuse (page : Page)

/-! ### Locking and reading -/

/-- `dsm->read_sync(*page_buffer, page_addr, page_size)`. -/
def readSync (s : State) (call : Call) : State :=
  match s.mem call.p with
  | some page => { s with phase := .holding call page }
  | none => { s with phase := .failed }

/-- `dsm->write_sync` of the page that was handed over, which is then as good as written. -/
def writeBack (s : State) (page : Page) : State :=
  { s with
    mem := Function.update s.mem s.ln.pageAddr (some page)
    ln := { s.ln with wb := 0, safe := false }
    unwritten := Function.update s.unwritten s.ln.pageAddr [] }

/-- `same_address`: the page handed over is the one that is wanted. -/
def Record.sameAddress (ln : Record) (call : Call) : Bool :=
  decide (ln.pageAddr = call.p) && decide (ln.level = call.task.level) &&
    (ln.pageBuffer.any fun page => decide (page.hdr.level = call.task.level)) && ln.safe

/-- `lock_and_read_page` of a thread the lock was handed to. -/
def lockHanded (s : State) (call : Call) : State :=
  match s.ln.sameAddress call, s.ln.pageBuffer with
  | true, some page =>
      if page.consistent then { s with phase := .holding call page } else { s with phase := .failed }
  | _, buffer =>
      if s.ln.wb = 0 then readSync { s with ln := { s.ln with safe := false } } call
      else
        match buffer with
        | some page => readSync (writeBack s page) call
        | none => { s with phase := .failed }

/-- `lock_and_read_page` of a thread that took the lock from the memory node. -/
def lockRemote (s : State) (call : Call) : State :=
  readSync { s with ideal := s.mem, unwritten := fun _ => [] } call

/-! ### Releasing -/

/-- `unlock_addr`. -/
def unlockAddr (s : State) (handOver : Bool) (pageBuf : Option Page) (pageAddr : GlobalAddress)
    (level : Nat) (staleCache : Bool) : State :=
  if handOver then
    { s with
      ln := { s.ln with
        pageBuffer := pageBuf, pageAddr := pageAddr, level := level, safe := !staleCache }
      phase := .free true }
  else if s.ln.wb = 0 then
    { s with ln := { s.ln with safe := false }, phase := .free false }
  else
    match s.ln.pageBuffer with
    | some page => { writeBack s page with phase := .free false }
    | none => { s with phase := .failed }

/-- `write_page_and_unlock`: `page` is the whole page as the holder leaves it in its buffer,
`change` what it has modified, `write` what is written if the lock is not handed over. -/
def writePageAndUnlock (s : State) (handOver : Bool) (page : Page) (pageAddr : GlobalAddress)
    (level : Nat) (async : Bool) (change : Change) (write : Option Page → Option Page) : State :=
  let ln : Record := ⟨some page, pageAddr, level, s.ln.wb + 1, !async⟩
  let unwritten := Function.update s.unwritten pageAddr (change :: s.unwritten pageAddr)
  if handOver then { s with ln := ln, phase := .free true, unwritten := unwritten }
  else
    { s with
      mem := Function.update s.mem pageAddr (write (s.mem pageAddr))
      ln := { ln with safe := false, wb := 0 }
      phase := .free false
      unwritten := unwritten }

/-- What the call makes of the pages where every modification is written back. -/
def reference (call : Call) (fresh : GlobalAddress) (ideal : GlobalAddress → Option Page) :
    GlobalAddress → Option Page :=
  match (ideal call.p).map (call.task.outcome call.op), ideal call.p with
  | some (.entry i r), some page => Function.update ideal call.p (some (page.setEntry i r))
  | some (.page page), _ => Function.update ideal call.p (some (.internal page))
  | some (.split left right _), _ =>
      Function.update (Function.update ideal fresh (some right)) call.p (some (left.link fresh))
  | _, _ => ideal

/-- What a stale cache hit passes for `level` and `stale_cache`: `leaf_page_del` has its `true`
one place too early. -/
def staleArgs : Task → Nat × Bool
  | .leafDel _ => (1, false)
  | task => (task.level, true)

/-- From the return of `lock_and_read_page` to the release. -/
def finish (s : State) (call : Call) (page : Page) (fresh : GlobalAddress) (handOver : Bool) :
    Option State :=
  let s' := { s with ideal := reference call fresh s.ideal }
  match call.task.outcome call.op page with
  | .fail _ => some { s with phase := .failed }
  | .stale =>
      some (unlockAddr s handOver (some page) call.p (staleArgs call.task).1 (staleArgs call.task).2)
  | .right _ => some (unlockAddr s handOver (some page) call.p call.task.level false)
  | .absent => some (unlockAddr s handOver none .Null 0 false)
  | .entry i r =>
      some (writePageAndUnlock s' handOver (page.setEntry i r) call.p call.task.level false
        (.entry i) (Option.map (Page.setEntry i r)))
  | .page page' =>
      some (writePageAndUnlock s' handOver (.internal page') call.p call.task.level false
        .whole fun _ => some (.internal page'))
  | .split left right _ =>
      if s.mem fresh = none ∧ fresh ≠ .Null then
        some (writePageAndUnlock { s' with mem := Function.update s.mem fresh (some right) } handOver
          (left.link fresh) call.p call.task.level true .whole fun _ => some (left.link fresh))
      else none

def writeElsewhere (s : State) (a : GlobalAddress) (page : Page) : State :=
  { s with
    mem := Function.update s.mem a (some page)
    ideal := Function.update s.ideal a (some page) }

def step (cfg : Config) (l : LockAddr) (s : State) : Action → Option State
  | .lockAndRead call =>
      match s.phase with
      | .free handOver =>
          if cfg.lockAddr call.p = l ∧ call.p ≠ .Null then
            some (if handOver then lockHanded s call else lockRemote s call)
          else none
      | _ => none
  | .finish fresh handOver =>
      match s.phase with
      | .holding call page => finish s call page fresh handOver
      | _ => none
  | .elsewhere a page =>
      match s.phase with
      | .free false => some (writeElsewhere s a page)
      | _ =>
          if cfg.lockAddr a ≠ l ∨ s.mem a = none ∧ a ≠ .Null then some (writeElsewhere s a page)
          else none
  | .reuse page =>
      some { s with ln := { s.ln with pageBuffer := s.ln.pageBuffer.map fun _ => page } }

/-- The holders of lock `l` in one node, whatever the memory holds to begin with. -/
def machine (cfg : Config) (l : LockAddr) : System State Action where
  Init s := ∃ mem, s = State.init mem
  step := step cfg l

/-! ### What the record is worth -/

/-- While the local lock is free and to be handed over with `wb > 0`, the record names the page
with the modifications that are not written, and its buffer holds the page with all of them. -/
def State.Valid (s : State) : Prop :=
  s.phase = .free true → 0 < s.ln.wb →
    (s.unwritten s.ln.pageAddr).length = s.ln.wb ∧
      (∀ a, a ≠ s.ln.pageAddr → s.unwritten a = []) ∧
      s.ln.pageBuffer ≠ none ∧ s.ln.pageBuffer = s.ideal s.ln.pageAddr

/-- All that other nodes can see of the pages the lock guards. -/
def State.Written (cfg : Config) (l : LockAddr) (s : State) : Prop :=
  ∀ a, cfg.lockAddr a = l → s.mem a = s.ideal a

/-- The holder leaves through `write_page_and_unlock`, with the page in its own buffer. -/
def writes : Outcome → Bool
  | .entry .. | .page _ | .split .. => true
  | _ => false

/-- The step does not hand over the null page of a `del` that found nothing while there is
something to write, and does not overwrite a buffer that is still wanted: before the receiver has
copied it, or by a receiver that is to write it back. -/
def Keeps (s : State) : Action → Prop
  | .finish _ handOver =>
      match s.phase with
      | .holding call page =>
          handOver = true → call.task.outcome call.op page = .absent → s.ln.wb = 0
      | _ => True
  | .reuse _ =>
      match s.phase with
      | .free handOver => handOver = false
      | .holding call page => s.ln.wb = 0 ∨ writes (call.task.outcome call.op page) = true
      | .failed => True
  | _ => True

/-- Nor is the lock given back by the write of one entry while something else of the page is not
written yet. -/
def KeepsAll (s : State) (a : Action) : Prop :=
  Keeps s a ∧
    match a, s.phase with
    | .finish _ false, .holding call page =>
        ∀ i r, call.task.outcome call.op page = .entry i r →
          ∀ change ∈ s.unwritten call.p, change = .entry i
    | _, _ => True

/-! ### The invariant -/

section Invariant

variable {cfg : Config} {l : LockAddr} {s s' : State} {call : Call} {page : Page}

/-- The memory lags behind at most in page `a`, by `wb` modifications, and if these are all of one
entry, at most in that entry. -/
structure Lag (cfg : Config) (l : LockAddr) (s : State) (a : GlobalAddress) : Prop where
  counted : (s.unwritten a).length = s.ln.wb
  others : ∀ b, b ≠ a → s.unwritten b = []
  agree : ∀ b, cfg.lockAddr b = l → s.ln.wb = 0 ∨ b ≠ a → s.mem b = s.ideal b
  entries : cfg.lockAddr a = l → ∀ i, (∀ change ∈ s.unwritten a, change = .entry i) → ∀ r,
    (s.mem a).map (Page.setEntry i r) = (s.ideal a).map (Page.setEntry i r)

/-- `page` is the latest version of the page at `a`, which the lock guards. -/
structure Latest (cfg : Config) (l : LockAddr) (s : State) (a : GlobalAddress) (page : Page) :
    Prop where
  guarded : cfg.lockAddr a = l
  ideal : s.ideal a = some page
  mapped : s.mem a ≠ none

/-- The local lock is free, to be handed over. -/
structure Handed (cfg : Config) (l : LockAddr) (s : State) : Prop where
  lag : Lag cfg l s s.ln.pageAddr
  buffer : ∀ page, s.ln.pageBuffer = some page → Latest cfg l s s.ln.pageAddr page
  null : s.ln.pageBuffer = none → s.ln.wb = 0

/-- The holder works on a copy of the latest version. -/
structure Held (cfg : Config) (l : LockAddr) (s : State) (call : Call) (page : Page) : Prop where
  lag : Lag cfg l s call.p
  latest : Latest cfg l s call.p page
  buffer : s.ln.wb ≠ 0 → writes (call.task.outcome call.op page) = false →
    s.ln.pageBuffer = some page ∧ s.ln.pageAddr = call.p

def Inv (cfg : Config) (l : LockAddr) (s : State) : Prop :=
  match s.phase with
  | .free false => s.ln.wb = 0
  | .free true => Handed cfg l s
  | .holding call page => Held cfg l s call page
  | .failed => True

theorem setEntry_setEntry (i : Nat) (r r' : LeafEntry) (page : Page) :
    (page.setEntry i r').setEntry i r = page.setEntry i r := by
  cases page with
  | internal page => rfl
  | leaf page => simp only [Page.setEntry, LeafPage.set, List.set_set]

/-- A page that is the same lags behind in no entry. -/
theorem Lag.of_agree {a : GlobalAddress} (hcounted : (s.unwritten a).length = s.ln.wb)
    (hothers : ∀ b, b ≠ a → s.unwritten b = [])
    (hagree : ∀ b, cfg.lockAddr b = l → s.mem b = s.ideal b) : Lag cfg l s a :=
  ⟨hcounted, hothers, fun b hb _ => hagree b hb, fun ha _ _ _ => by rw [hagree a ha]⟩

/-- With nothing unwritten every page may count as the one that lags behind. -/
theorem Lag.move {a : GlobalAddress} (h : Lag cfg l s a) (hwb : s.ln.wb = 0) (b : GlobalAddress) :
    Lag cfg l s b := by
  have hempty : ∀ c, s.unwritten c = [] := by
    intro c
    by_cases hc : c = a
    · rw [hc]
      exact List.eq_nil_of_length_eq_zero (h.counted.trans hwb)
    · exact h.others c hc
  refine .of_agree ?_ (fun c _ => hempty c) fun c hc => h.agree c hc (Or.inl hwb)
  rw [hempty b, hwb]
  rfl

/-! ### Locking and reading -/

/-- Reading from the memory node, when nothing is unwritten. -/
theorem inv_readSync {a : GlobalAddress} (h : Lag cfg l s a) (hwb : s.ln.wb = 0)
    (hp : cfg.lockAddr call.p = l) : Inv cfg l (readSync s call) := by
  have hlag := h.move hwb call.p
  unfold readSync
  cases hmem : s.mem call.p with
  | none => trivial
  | some page =>
      have hideal : s.ideal call.p = some page :=
        (hlag.agree call.p hp (Or.inl hwb)).symm.trans hmem
      have hmapped : s.mem call.p ≠ none := by
        rw [hmem]
        exact Option.some_ne_none page
      exact ⟨⟨hlag.counted, hlag.others, hlag.agree, hlag.entries⟩, ⟨hp, hideal, hmapped⟩,
        fun hne => absurd hwb hne⟩

/-- After a write-back nothing is unwritten. -/
theorem Lag.writeBack {a : GlobalAddress} (h : Lag cfg l s a) (haddr : s.ln.pageAddr = a)
    (hlatest : Latest cfg l s a page) : Lag cfg l (writeBack s page) a := by
  subst haddr
  have hself : (HandoverData.writeBack s page).unwritten s.ln.pageAddr = [] := Function.update_self ..
  refine .of_agree (by rw [hself]; rfl) (fun b hb => ?_) fun b hb => ?_
  · exact (Function.update_of_ne hb _ _).trans (h.others b hb)
  · show Function.update s.mem s.ln.pageAddr (some page) b = s.ideal b
    by_cases hb' : b = s.ln.pageAddr
    · rw [hb', Function.update_self, hlatest.ideal]
    · rw [Function.update_of_ne hb', h.agree b hb (Or.inr hb')]

theorem Handed.lock (h : Handed cfg l s) (hp : cfg.lockAddr call.p = l) :
    Inv cfg l (lockHanded s call) := by
  have hother : ∀ buffer, s.ln.pageBuffer = buffer → Inv cfg l
      (if s.ln.wb = 0 then readSync { s with ln := { s.ln with safe := false } } call
      else
        match buffer with
        | some page => readSync (writeBack s page) call
        | none => { s with phase := .failed }) := by
    intro buffer hbuffer
    split
    · rename_i hwb
      have hlag : Lag cfg l { s with ln := { s.ln with safe := false } } s.ln.pageAddr :=
        ⟨h.lag.counted, h.lag.others, h.lag.agree, h.lag.entries⟩
      exact inv_readSync hlag hwb hp
    · cases buffer with
      | none => trivial
      | some page =>
          exact inv_readSync (h.lag.writeBack rfl (h.buffer page hbuffer)) rfl hp
  unfold lockHanded
  cases hsame : s.ln.sameAddress call with
  | false => exact hother _ rfl
  | true =>
      cases hbuffer : s.ln.pageBuffer with
      | none => exact hother _ hbuffer
      | some page =>
          simp only
          split
          · -- the copy of the buffer is what the reference build has in memory
            simp only [Record.sameAddress, Bool.and_eq_true, decide_eq_true_eq] at hsame
            obtain ⟨⟨⟨haddr, -⟩, -⟩, -⟩ := hsame
            have hlatest := h.buffer page hbuffer
            have hlag := h.lag
            rw [haddr] at hlatest hlag
            exact ⟨⟨hlag.counted, hlag.others, hlag.agree, hlag.entries⟩,
              ⟨hlatest.guarded, hlatest.ideal, hlatest.mapped⟩, fun _ _ => ⟨hbuffer, haddr⟩⟩
          · trivial

theorem inv_lockRemote (hwb : s.ln.wb = 0) (hp : cfg.lockAddr call.p = l) :
    Inv cfg l (lockRemote s call) := by
  have hlag : Lag cfg l { s with ideal := s.mem, unwritten := fun _ => [] } call.p :=
    .of_agree hwb.symm (fun _ _ => rfl) fun _ _ => rfl
  exact inv_readSync hlag hwb hp

/-! ### Releasing -/

/-- `unlock_addr`, of a holder that leaves its copy of the page, or nothing if there is nothing
to write. -/
theorem Held.unlock (h : Held cfg l s call page) (handOver : Bool) {pageBuf : Option Page}
    {a : GlobalAddress} (level : Nat) (staleCache : Bool)
    (hunlock : writes (call.task.outcome call.op page) = false)
    (hbuf : handOver = true →
      pageBuf = some page ∧ a = call.p ∨ pageBuf = none ∧ s.ln.wb = 0) :
    Inv cfg l (unlockAddr s handOver pageBuf a level staleCache) ∧
      ((unlockAddr s handOver pageBuf a level staleCache).phase = .free false →
        (unlockAddr s handOver pageBuf a level staleCache).Written cfg l) := by
  cases handOver with
  | true =>
      refine ⟨?_, fun hphase => nomatch hphase⟩
      rcases hbuf rfl with ⟨rfl, rfl⟩ | ⟨rfl, hwb⟩
      · refine ⟨⟨h.lag.counted, h.lag.others, h.lag.agree, h.lag.entries⟩, fun page' hpage' => ?_,
          fun hnone => ?_⟩
        · obtain rfl := Option.some.inj hpage'
          exact ⟨h.latest.guarded, h.latest.ideal, h.latest.mapped⟩
        · exact nomatch hnone
      · have hlag := h.lag.move hwb a
        exact ⟨⟨hlag.counted, hlag.others, hlag.agree, hlag.entries⟩, fun _ hpage' => (nomatch hpage'),
          fun _ => hwb⟩
  | false =>
      unfold unlockAddr
      rw [if_neg Bool.false_ne_true]
      by_cases hwb : s.ln.wb = 0
      · rw [if_pos hwb]
        exact ⟨hwb, fun _ b hb => h.lag.agree b hb (Or.inl hwb)⟩
      · rw [if_neg hwb]
        obtain ⟨hbuffer, haddr⟩ := h.buffer hwb hunlock
        have hlag := h.lag.writeBack haddr h.latest
        rw [hbuffer]
        exact ⟨rfl, fun _ b hb => hlag.agree b hb (Or.inl rfl)⟩

/-- `write_page_and_unlock`, when `page` is the latest version of a page that may not be written
and every other page is. -/
theorem inv_write {a : GlobalAddress} {change : Change} (hlatest : Latest cfg l s a page)
    (hcounted : (s.unwritten a).length = s.ln.wb) (hothers : ∀ b, b ≠ a → s.unwritten b = [])
    (hagree : ∀ b, cfg.lockAddr b = l → b ≠ a → s.mem b = s.ideal b)
    (hentries : ∀ i, change = .entry i → (∀ old ∈ s.unwritten a, old = .entry i) → ∀ r,
      (s.mem a).map (Page.setEntry i r) = some (page.setEntry i r))
    (handOver : Bool) (level : Nat) (async : Bool) (write : Option Page → Option Page) :
    Inv cfg l (writePageAndUnlock s handOver page a level async change write) := by
  have hself : Function.update s.unwritten a (change :: s.unwritten a) a =
      change :: s.unwritten a := Function.update_self ..
  cases handOver with
  | false => exact rfl
  | true =>
      refine ⟨⟨?_, fun b hb => ?_, fun b hb hne => ?_, fun _ i hall r => ?_⟩,
        fun page' hpage' => ?_, fun hnone => ?_⟩
      · exact (congrArg List.length hself).trans (congrArg (· + 1) hcounted)
      · exact (Function.update_of_ne hb _ _).trans (hothers b hb)
      · exact hagree b hb (hne.resolve_left (Nat.succ_ne_zero _))
      · have hlist : ∀ old ∈ change :: s.unwritten a, old = .entry i := hself ▸ hall
        obtain ⟨hchange, hrest⟩ := List.forall_mem_cons.mp hlist
        show (s.mem a).map _ = (s.ideal a).map _
        rw [hentries i hchange hrest r, hlatest.ideal]
        rfl
      · obtain rfl := Option.some.inj hpage'
        exact ⟨hlatest.guarded, hlatest.ideal, hlatest.mapped⟩
      · exact nomatch hnone

theorem written_write {a : GlobalAddress} {change : Change} (hlatest : Latest cfg l s a page)
    (hagree : ∀ b, cfg.lockAddr b = l → b ≠ a → s.mem b = s.ideal b) (level : Nat) (async : Bool)
    {write : Option Page → Option Page} (hwrite : write (s.mem a) = some page) :
    (writePageAndUnlock s false page a level async change write).Written cfg l := by
  intro b hb
  show Function.update s.mem a (write (s.mem a)) b = s.ideal b
  by_cases hb' : b = a
  · rw [hb', Function.update_self, hwrite, hlatest.ideal]
  · rw [Function.update_of_ne hb', hagree b hb hb']

/-- Writing an entry of which alone the memory lags behind. -/
theorem Held.entry (h : Held cfg l s call page) {i : Nat}
    (hall : ∀ change ∈ s.unwritten call.p, change = .entry i) (r : LeafEntry) :
    (s.mem call.p).map (Page.setEntry i r) = some (page.setEntry i r) := by
  rw [h.lag.entries h.latest.guarded i hall r, h.latest.ideal]
  rfl

/-- What the call leaves behind is as good as in the reference build. -/
theorem Held.whole (h : Held cfg l s call page) {mem ideal : GlobalAddress → Option Page}
    (change : Change) (page' : Page) (hmapped : mem call.p ≠ none)
    (hideal : ideal call.p = some page')
    (hagree : ∀ b, cfg.lockAddr b = l → b ≠ call.p → mem b = ideal b)
    (hentries : ∀ i, change = .entry i → (∀ old ∈ s.unwritten call.p, old = .entry i) → ∀ r,
      (mem call.p).map (Page.setEntry i r) = some (page'.setEntry i r)) (handOver : Bool)
    (level : Nat) (async : Bool) (write : Option Page → Option Page) :
    Inv cfg l (writePageAndUnlock { s with mem := mem, ideal := ideal } handOver page' call.p level
      async change write) ∧
    (write (mem call.p) = some page' →
      (writePageAndUnlock { s with mem := mem, ideal := ideal } handOver page' call.p level
        async change write).phase = .free false →
      (writePageAndUnlock { s with mem := mem, ideal := ideal } handOver page' call.p level
        async change write).Written cfg l) := by
  have hlatest : Latest cfg l { s with mem := mem, ideal := ideal } call.p page' :=
    ⟨h.latest.guarded, hideal, hmapped⟩
  refine ⟨inv_write hlatest h.lag.counted h.lag.others hagree hentries handOver level async write,
    ?_⟩
  intro hwrite hphase
  cases handOver with
  | true => exact nomatch hphase
  | false => exact written_write hlatest hagree level async hwrite

theorem Held.finish (h : Held cfg l s call page) {fresh : GlobalAddress} {handOver : Bool}
    (hkeeps : handOver = true → call.task.outcome call.op page = .absent → s.ln.wb = 0)
    (hstep : HandoverData.finish s call page fresh handOver = some s') :
    Inv cfg l s' ∧ ((handOver = false → ∀ i r, call.task.outcome call.op page = .entry i r →
      ∀ change ∈ s.unwritten call.p, change = .entry i) →
      s'.phase = .free false → s'.Written cfg l) := by
  have hideal := h.latest.ideal
  have hagree : ∀ b, cfg.lockAddr b = l → b ≠ call.p → s.mem b = s.ideal b :=
    fun b hb hne => h.lag.agree b hb (Or.inr hne)
  unfold HandoverData.finish at hstep
  cases houtcome : call.task.outcome call.op page with
  | fail why =>
      rw [houtcome] at hstep
      cases hstep
      exact ⟨trivial, fun _ hphase => nomatch hphase⟩
  | stale =>
      rw [houtcome] at hstep
      cases hstep
      have hunlock := h.unlock handOver (staleArgs call.task).1 (staleArgs call.task).2
        (by rw [houtcome]; rfl) fun _ => Or.inl ⟨rfl, rfl⟩
      exact ⟨hunlock.1, fun _ => hunlock.2⟩
  | right sibling =>
      rw [houtcome] at hstep
      cases hstep
      have hunlock := h.unlock handOver call.task.level false
        (by rw [houtcome]; rfl) fun _ => Or.inl ⟨rfl, rfl⟩
      exact ⟨hunlock.1, fun _ => hunlock.2⟩
  | absent =>
      rw [houtcome] at hstep
      cases hstep
      have hunlock := h.unlock (a := .Null) handOver 0 false
        (by rw [houtcome]; rfl) fun hyes => Or.inr ⟨rfl, hkeeps hyes houtcome⟩
      exact ⟨hunlock.1, fun _ => hunlock.2⟩
  | entry i r =>
      rw [houtcome] at hstep
      cases hstep
      have hreference : reference call fresh s.ideal =
          Function.update s.ideal call.p (some (page.setEntry i r)) := by
        simp only [reference, hideal, Option.map_some, houtcome]
      rw [hreference]
      have hwhole := h.whole (.entry i) (page.setEntry i r) h.latest.mapped
        (Function.update_self ..)
        (fun b hb hne => (hagree b hb hne).trans (Function.update_of_ne hne _ _).symm)
        (fun j hj hall r' => ?_) handOver call.task.level false (Option.map (Page.setEntry i r))
      · refine ⟨hwhole.1, fun hclean hphase => hwhole.2 ?_ hphase⟩
        -- only the entry is written, so the rest of the page has to be there already
        cases handOver with
        | true => exact nomatch hphase
        | false => exact h.entry (hclean rfl i r rfl) r
      · obtain rfl := Change.entry.inj hj
        rw [h.entry hall r', setEntry_setEntry]
  | page page' =>
      rw [houtcome] at hstep
      cases hstep
      have hreference : reference call fresh s.ideal =
          Function.update s.ideal call.p (some (.internal page')) := by
        simp only [reference, hideal, Option.map_some, houtcome]
      rw [hreference]
      have hwhole := h.whole .whole (.internal page') h.latest.mapped (Function.update_self ..)
        (fun b hb hne => (hagree b hb hne).trans (Function.update_of_ne hne _ _).symm)
        (fun _ heq => (nomatch heq)) handOver call.task.level false fun _ => some (.internal page')
      exact ⟨hwhole.1, fun _ => hwhole.2 rfl⟩
  | split left right splitKey =>
      rw [houtcome] at hstep
      simp only at hstep
      split at hstep
      · rename_i hfresh
        cases hstep
        have hne : call.p ≠ fresh := fun heq => h.latest.mapped (heq ▸ hfresh.1)
        have hreference : reference call fresh s.ideal =
            Function.update (Function.update s.ideal fresh (some right)) call.p
              (some (left.link fresh)) := by
          simp only [reference, hideal, Option.map_some, houtcome]
        rw [hreference]
        have hmapped : Function.update s.mem fresh (some right) call.p ≠ none := by
          rw [Function.update_of_ne hne]
          exact h.latest.mapped
        have hagree' : ∀ b, cfg.lockAddr b = l → b ≠ call.p →
            Function.update s.mem fresh (some right) b =
              Function.update (Function.update s.ideal fresh (some right)) call.p
                (some (left.link fresh)) b := by
          intro b hb hb'
          rw [Function.update_of_ne hb']
          by_cases hbf : b = fresh
          · rw [hbf, Function.update_self, Function.update_self]
          · rw [Function.update_of_ne hbf, Function.update_of_ne hbf, hagree b hb hb']
        have hwhole := h.whole .whole (left.link fresh) hmapped
          (Function.update_self ..) hagree' (fun _ heq => (nomatch heq)) handOver call.task.level
          true fun _ => some (left.link fresh)
        exact ⟨hwhole.1, fun _ => hwhole.2 rfl⟩
      · cases hstep

/-! ### Every step -/

theorem Lag.elsewhere {a : GlobalAddress} (h : Lag cfg l s a) (b : GlobalAddress) (page : Page) :
    Lag cfg l (writeElsewhere s b page) a := by
  have hsame : ∀ c, s.mem c = s.ideal c →
      Function.update s.mem b (some page) c = Function.update s.ideal b (some page) c := by
    intro c hc
    rw [Function.update_apply, Function.update_apply, hc]
  refine ⟨h.counted, h.others, fun c hc hne => hsame c (h.agree c hc hne), fun ha i hall r => ?_⟩
  show (Function.update s.mem b (some page) a).map _ =
    (Function.update s.ideal b (some page) a).map _
  rw [Function.update_apply, Function.update_apply]
  split
  · rfl
  · exact h.entries ha i hall r

/-- A write to a page that the lock does not guard, or that is new. -/
theorem Latest.elsewhere {a b : GlobalAddress} (h : Latest cfg l s a page)
    (hb : cfg.lockAddr b ≠ l ∨ s.mem b = none) (page' : Page) :
    Latest cfg l (writeElsewhere s b page') a page := by
  have hne : a ≠ b := by
    rintro rfl
    exact hb.elim (fun hl => hl h.guarded) h.mapped
  refine ⟨h.guarded, (Function.update_of_ne hne _ _).trans h.ideal, ?_⟩
  exact fun hnone => h.mapped ((Function.update_of_ne hne _ _).symm.trans hnone)

theorem Inv.elsewhere (h : Inv cfg l s) {a : GlobalAddress} (page : Page)
    (hs : s.phase = .free false ∨ cfg.lockAddr a ≠ l ∨ s.mem a = none) :
    Inv cfg l (writeElsewhere s a page) := by
  unfold Inv at h ⊢
  have hphase : (writeElsewhere s a page).phase = s.phase := rfl
  rw [hphase]
  cases hcase : s.phase with
  | failed => trivial
  | holding call page' =>
      rw [hcase] at h hs
      have hapart := hs.resolve_left (fun heq => nomatch heq)
      exact ⟨h.lag.elsewhere a page, h.latest.elsewhere hapart page, h.buffer⟩
  | free handOver =>
      rw [hcase] at h hs
      cases handOver with
      | false => exact h
      | true =>
          have hapart := hs.resolve_left (fun heq => nomatch heq)
          exact ⟨h.lag.elsewhere a page,
            fun page' hpage' => (h.buffer page' hpage').elsewhere hapart page, h.null⟩

theorem Inv.reuse (h : Inv cfg l s) (hkeeps : Keeps s (.reuse page)) :
    Inv cfg l { s with ln := { s.ln with pageBuffer := s.ln.pageBuffer.map fun _ => page } } := by
  unfold Inv at h ⊢
  unfold Keeps at hkeeps
  cases hcase : s.phase with
  | failed => trivial
  | holding call page' =>
      rw [hcase] at h hkeeps
      refine ⟨⟨h.lag.counted, h.lag.others, h.lag.agree, h.lag.entries⟩,
        ⟨h.latest.guarded, h.latest.ideal, h.latest.mapped⟩, fun hne hunlock => ?_⟩
      rcases hkeeps with hwb | hwrites
      · exact absurd hwb hne
      · exact absurd (hunlock.symm.trans hwrites) Bool.false_ne_true
  | free handOver =>
      rw [hcase] at h hkeeps
      obtain rfl : handOver = false := hkeeps
      exact h

/-- A step that keeps the record keeps the invariant. -/
theorem Inv.step (h : Inv cfg l s) {a : Action} (hkeeps : Keeps s a)
    (hstep : HandoverData.step cfg l s a = some s') : Inv cfg l s' := by
  cases a with
  | lockAndRead call =>
      simp only [HandoverData.step] at hstep
      unfold Inv at h
      cases hcase : s.phase with
      | free handOver =>
          rw [hcase] at h hstep
          simp only at hstep
          split at hstep
          · rename_i hp
            cases hstep
            cases handOver with
            | false => exact inv_lockRemote h hp.1
            | true => exact Handed.lock h hp.1
          · cases hstep
      | holding call' page =>
          rw [hcase] at hstep
          cases hstep
      | failed =>
          rw [hcase] at hstep
          cases hstep
  | finish fresh handOver =>
      simp only [HandoverData.step] at hstep
      unfold Inv at h
      unfold Keeps at hkeeps
      cases hcase : s.phase with
      | free handOver =>
          rw [hcase] at hstep
          cases hstep
      | holding call page =>
          rw [hcase] at h hstep hkeeps
          exact (Held.finish h hkeeps hstep).1
      | failed =>
          rw [hcase] at hstep
          cases hstep
  | elsewhere a page =>
      simp only [HandoverData.step] at hstep
      split at hstep
      · rename_i hcase
        cases hstep
        exact h.elsewhere page (Or.inl hcase)
      · split at hstep
        · rename_i hapart
          cases hstep
          exact h.elsewhere page (Or.inr (hapart.imp_right And.left))
        · cases hstep
  | reuse page =>
      cases hstep
      exact h.reuse hkeeps

theorem readSync_phase (s : State) (call : Call) (handOver : Bool) :
    (readSync s call).phase ≠ .free handOver := by
  unfold readSync
  cases s.mem call.p with
  | none => exact fun h => nomatch h
  | some page => exact fun h => nomatch h

/-- Locking does not leave the lock free. -/
theorem lock_phase (handed : Bool) {handOver : Bool} :
    (if handed then lockHanded s call else lockRemote s call).phase ≠ .free handOver := by
  cases handed with
  | false => exact readSync_phase _ call handOver
  | true =>
      rw [if_pos rfl]
      unfold lockHanded
      split
      · split
        · exact fun h => nomatch h
        · exact fun h => nomatch h
      · split
        · exact readSync_phase _ call handOver
        · split
          · exact readSync_phase _ call handOver
          · exact fun h => nomatch h

/-- With every modification written before the lock leaves the node, the invariant of the
memory too. -/
theorem Inv.step_written (h : Inv cfg l s) (hw : s.phase = .free false → s.Written cfg l)
    {a : Action} (hkeeps : KeepsAll s a) (hstep : HandoverData.step cfg l s a = some s') :
    s'.phase = .free false → s'.Written cfg l := by
  obtain ⟨hkeeps, hall⟩ := hkeeps
  intro hphase
  cases a with
  | lockAndRead call =>
      simp only [HandoverData.step] at hstep
      split at hstep
      · split at hstep
        · cases hstep
          exact absurd hphase (lock_phase _)
        · cases hstep
      · cases hstep
  | finish fresh handOver =>
      simp only [HandoverData.step] at hstep
      unfold Inv at h
      unfold Keeps at hkeeps
      cases hcase : s.phase with
      | free handOver =>
          rw [hcase] at hstep
          cases hstep
      | holding call page =>
          rw [hcase] at h hstep hkeeps hall
          refine (Held.finish h hkeeps hstep).2 ?_ hphase
          rintro rfl
          exact hall
      | failed =>
          rw [hcase] at hstep
          cases hstep
  | elsewhere a page =>
      have hfree : s.phase = .free false ∧ s' = writeElsewhere s a page := by
        simp only [HandoverData.step] at hstep
        split at hstep
        · rename_i hcase
          cases hstep
          exact ⟨hcase, rfl⟩
        · split at hstep
          · cases hstep
            exact ⟨hphase, rfl⟩
          · cases hstep
      obtain ⟨hfree, rfl⟩ := hfree
      intro b hb
      show Function.update s.mem a (some page) b = Function.update s.ideal a (some page) b
      by_cases hba : b = a
      · rw [hba, Function.update_self, Function.update_self]
      · rw [Function.update_of_ne hba, Function.update_of_ne hba, hw hfree b hb]
  | reuse page =>
      cases hstep
      exact hw hphase

end Invariant

/-! ### The runs -/

section Runs

variable {cfg : Config} {l : LockAddr} {s : State}

theorem inv_of_reachable (h : (machine cfg l).ReachableBy Keeps s) : Inv cfg l s := by
  refine h.invariant (I := Inv cfg l) ?_ ?_
  · rintro s ⟨mem, rfl⟩
    exact rfl
  · intro s a s' hs hkeeps hstep
    exact hs.step hkeeps hstep

/-- **The record stays valid as long as no step hands over the null page of a `del` that found
nothing, or overwrites a buffer that is still wanted.** -/
theorem handover_record_valid (h : (machine cfg l).ReachableBy Keeps s) : s.Valid := by
  intro hphase hwb
  have hinv := inv_of_reachable h
  unfold Inv at hinv
  rw [hphase] at hinv
  obtain ⟨hlag, hbuffer, hnull⟩ := hinv
  have hsome : s.ln.pageBuffer ≠ none := fun hnone => (Nat.ne_of_gt hwb) (hnull hnone)
  refine ⟨hlag.counted, hlag.others, hsome, ?_⟩
  cases hpage : s.ln.pageBuffer with
  | none => exact absurd hpage hsome
  | some page => exact (hbuffer page hpage).ideal.symm

/-- **With data handover the memory is what writing everything back would have made it, as long
as besides that the lock is not given back by the write of one entry to a page of which something
else is not written yet.** -/
theorem data_handover_refines (h : (machine cfg l).ReachableBy KeepsAll s)
    (hfree : s.phase = .free false) : s.Written cfg l := by
  refine And.right (System.ReachableBy.invariant
    (I := fun s => Inv cfg l s ∧ (s.phase = .free false → s.Written cfg l)) h ?_ ?_) hfree
  · rintro s ⟨mem, rfl⟩
    exact ⟨rfl, fun _ _ _ => rfl⟩
  · intro s a s' hs hkeeps hstep
    exact ⟨hs.1.step hkeeps.1 hstep, hs.1.step_written hs.2 hkeeps hstep⟩

end Runs

/-! ### One leaf -/

/-- One empty leaf. -/
def oneLeaf : State := State.init fun a =>
  if a = ⟨0, 8⟩ then some (.leaf (LeafPage.new 0).setConsistent) else none

def insertOne (k v : Nat) : Call := ⟨.insert k v, .leafStore none, ⟨0, 8⟩⟩

def deleteOne (k : Nat) : Call := ⟨.del k, .leafDel none, ⟨0, 8⟩⟩

def oneLock : LockAddr := Tree.sample.lockAddr ⟨0, 8⟩

/-- Only `leaf_page_del` finds nothing to do. -/
theorem outcome_ne_absent {op : Op} {cached : Option (Nat × Nat)} (page : Page) :
    (Task.leafStore cached).outcome op page ≠ .absent := by
  cases page with
  | internal page => exact fun h => nomatch h
  | leaf page =>
      show page.store op.key op.value cached.isSome ≠ .absent
      simp only [LeafPage.store, LeafPage.split, LeafPage.splitSorted]
      repeat' split
      all_goals
        intro h
        cases h

set_option maxRecDepth 8000 in
/-- Two inserts, handed over one after the other. -/
theorem handover_record_valid_two : ∃ s,
    (machine Tree.sample oneLock).exec oneLeaf
      [.lockAndRead (insertOne 1 7), .finish .Null true, .lockAndRead (insertOne 2 8),
        .finish .Null true] = some s ∧ s.ln.wb = 2 ∧ s.Valid := by
  have hfirst : (machine Tree.sample oneLock).ReachableBy Keeps _ :=
    System.ReachableBy.tail ⟨oneLeaf, ⟨_, rfl⟩, .refl⟩ (.lockAndRead (insertOne 1 7)) trivial rfl
  have hdone := hfirst.tail (.finish .Null true) (fun _ h => absurd h (outcome_ne_absent _)) rfl
  have hsecond := hdone.tail (.lockAndRead (insertOne 2 8)) trivial rfl
  have hlast := hsecond.tail (.finish .Null true) (fun _ h => absurd h (outcome_ne_absent _)) rfl
  exact ⟨_, rfl, rfl, handover_record_valid hlast⟩

set_option maxRecDepth 8000 in
/-- An insert that is handed over, and then a `del` that finds nothing: the null page of the
`del` takes the place of the page with the insert. -/
theorem handover_record_null :
    ¬ ∀ s, (machine Tree.sample oneLock).Reachable s → s.Valid := by
  intro hall
  have hnull : ∃ s, (machine Tree.sample oneLock).exec oneLeaf
      [.lockAndRead (insertOne 1 7), .finish .Null true, .lockAndRead (deleteOne 2),
        .finish .Null true] = some s ∧ s.phase = .free true ∧ s.ln.wb = 1 ∧
      s.ln.pageBuffer = none := ⟨_, rfl, rfl, rfl, rfl⟩
  obtain ⟨s, hs, hfree, hwb, hbuffer⟩ := hnull
  have hvalid := hall s ⟨oneLeaf, ⟨_, rfl⟩, System.path_of_exec _ hs⟩
  exact (hvalid hfree (hwb ▸ Nat.one_pos)).2.2.1 hbuffer

set_option maxRecDepth 8000 in
/-- Two inserts of one key, the first one handed over: the second writes the one entry there is to
write. -/
theorem data_handover_refines_two : ∃ s,
    (machine Tree.sample oneLock).exec oneLeaf
      [.lockAndRead (insertOne 1 7), .finish .Null true, .lockAndRead (insertOne 1 8),
        .finish .Null false] = some s ∧ s.Written Tree.sample oneLock := by
  have hfirst : (machine Tree.sample oneLock).ReachableBy KeepsAll _ :=
    System.ReachableBy.tail ⟨oneLeaf, ⟨_, rfl⟩, .refl⟩ (.lockAndRead (insertOne 1 7))
      ⟨trivial, trivial⟩ rfl
  have hdone := hfirst.tail (.finish .Null true)
    ⟨fun _ h => absurd h (outcome_ne_absent _), trivial⟩ rfl
  have hsecond := hdone.tail (.lockAndRead (insertOne 1 8)) ⟨trivial, trivial⟩ rfl
  have hlast := hsecond.tail (.finish .Null false)
    ⟨fun h => (nomatch h), fun i r h change hchange => by
      have hentry : Outcome.entry 0 ⟨2, 1, 8, 2⟩ = .entry i r := h
      obtain ⟨rfl, -⟩ := Outcome.entry.inj hentry
      exact List.mem_singleton.mp hchange⟩ rfl
  exact ⟨_, rfl, data_handover_refines hlast rfl⟩

set_option maxRecDepth 8000 in
/-- Two inserts, the first one handed over: only the entry of the second is written. -/
theorem data_handover_lost :
    ¬ ∀ s, (machine Tree.sample oneLock).Reachable s → s.phase = .free false →
      s.Written Tree.sample oneLock := by
  intro hall
  have hlost : ∃ s, (machine Tree.sample oneLock).exec oneLeaf
      [.lockAndRead (insertOne 1 7), .finish .Null true, .lockAndRead (insertOne 2 8),
        .finish .Null false] = some s ∧ s.phase = .free false ∧
      decide (s.mem ⟨0, 8⟩ = s.ideal ⟨0, 8⟩) = false := ⟨_, rfl, rfl, by decide +kernel⟩
  obtain ⟨s, hs, hfree, hne⟩ := hlost
  have hwritten := hall s ⟨oneLeaf, ⟨_, rfl⟩, System.path_of_exec _ hs⟩ hfree
  exact of_decide_eq_false hne (hwritten ⟨0, 8⟩ rfl)

end Dal.HandoverData
