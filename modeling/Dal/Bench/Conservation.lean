/-
No increment of the benchmark is lost.

`Dal.Bench.Holder` says where the words of a page are.  Here every step of a worker keeps
that true, and from it what `check_MN_correctness` compares follows: when every lock word
is 0 the words are all in memory, and each is the number of acquisitions of its lock.
-/
import Dal.Bench.Holder
import Mathlib.Algebra.BigOperators.Ring.Finset
import Mathlib.Algebra.Order.BigOperators.Group.Finset

namespace Dal.Bench

open Handover (Thread Owns)
open Bytes

/-! ### Pages in memory -/

section Pages

variable {cfg : Config} {mem : Nat → Nat → Nat} {words : Nat → Nat}

theorem readPage_writePage {a : GlobalAddress} {k : Nat} (hk : k < dataLen)
    (hlt : words k < 2 ^ 64) : readPage (writePage mem a words) a k = words k := by
  have hbytes : ∀ j < 8, writePage mem a words a.nodeID (a.offset + 8 * k + j) =
      byte (words k) j := by
    intro j hj
    unfold dataLen at hk
    have hin : a.nodeID = a.nodeID ∧ a.offset ≤ a.offset + 8 * k + j ∧
        a.offset + 8 * k + j < a.offset + pageSize := ⟨rfl, by omega, by omega⟩
    have hword : (a.offset + 8 * k + j - a.offset) / 8 = k := by omega
    have hbyte : (a.offset + 8 * k + j - a.offset) % 8 = j := by omega
    rw [writePage, if_pos hin, hword, hbyte]
  rw [readPage, word_congr hbytes, word_byte hlt]

/-- A write of the page of one lock leaves the bytes outside it. -/
theorem writePage_of_not {l : LockAddr} {n x : Nat} (h : ¬ InPage cfg l n x) :
    writePage mem (cfg.baseAddr l) words n x = mem n x := by
  unfold writePage
  refine if_neg fun hin => h ⟨hin.1.symm, hin.2⟩

theorem inPage_word {l : LockAddr} {k j : Nat} (hk : k < dataLen) (hj : j < 8) :
    InPage cfg l l.nodeID ((cfg.baseAddr l).offset + 8 * k + j) := by
  unfold dataLen at hk
  exact ⟨rfl, by omega, by omega⟩

/-- Pages of different locks have no byte in common. -/
theorem Config.Apart.not_inPage (hap : cfg.Apart) {l l' : LockAddr} {n x : Nat} (hne : l' ≠ l)
    (h : InPage cfg l' n x) : ¬ InPage cfg l n x := by
  rintro ⟨hnode, hlo, hhi⟩
  obtain ⟨hnode', hlo', hhi'⟩ := h
  have hpage := hap.disjoint
  simp only [Config.baseAddr] at hlo hhi hlo' hhi'
  have hindex : l'.index = l.index := by
    rcases Nat.lt_trichotomy l'.index l.index with hlt | heq | hlt
    · have := Nat.mul_le_mul_left cfg.chunkSize (Nat.succ_le_of_lt hlt)
      rw [Nat.mul_succ] at this
      omega
    · exact heq
    · have := Nat.mul_le_mul_left cfg.chunkSize (Nat.succ_le_of_lt hlt)
      rw [Nat.mul_succ] at this
      omega
  refine hne ?_
  cases l
  cases l'
  exact congrArg₂ LockAddr.mk (hnode'.trans hnode.symm) hindex

theorem Config.Apart.readPage_writePage (hap : cfg.Apart) {l l' : LockAddr} (hne : l' ≠ l)
    {k : Nat} (hk : k < dataLen) :
    readPage (writePage mem (cfg.baseAddr l) words) (cfg.baseAddr l') k =
      readPage mem (cfg.baseAddr l') k := by
  refine word_congr fun j hj => ?_
  exact writePage_of_not (hap.not_inPage hne (inPage_word hk hj))

end Pages

/-! ### One thread moves -/

section Step

variable {cfg : Config} {s s' : State} {loc : LockAddr → Option Thread} {t u : Thread}
  {l l' : LockAddr} {p : Handover.Pc} {ph : Phase} {k : Nat}

/-- The step is one of thread `t`, which it leaves at `p` and in `ph`. -/
structure Turn (s s' : State) (t : Thread) (p : Handover.Pc) (ph : Phase) : Prop where
  pc : s'.lock.pc = Function.update s.lock.pc t p
  phase : s'.phase = Function.update s.phase t ph

theorem Turn.self (h : Turn s s' t p ph) : s'.lock.pc t = p ∧ s'.phase t = ph := by
  rw [h.pc, h.phase]
  exact ⟨Function.update_self .., Function.update_self ..⟩

theorem Turn.other (h : Turn s s' t p ph) (hne : u ≠ t) :
    s'.lock.pc u = s.lock.pc u ∧ s'.phase u = s.phase u := by
  rw [h.pc, h.phase]
  exact ⟨Function.update_of_ne hne .., Function.update_of_ne hne ..⟩

theorem Turn.fits (h : Turn s s' t p ph) (hfits : ∀ u, Fits cfg (s.phase u) (s.lock.pc u))
    (ht : Fits cfg ph p) : ∀ u, Fits cfg (s'.phase u) (s'.lock.pc u) := by
  intro u
  by_cases hu : u = t
  · rw [hu, h.self.1, h.self.2]
    exact ht
  · rw [(h.other hu).1, (h.other hu).2]
    exact hfits u

theorem Turn.drawn (h : Turn s s' t p ph)
    (hdrawn : ∀ u l k, (s.lock.pc u).queued = some (l, k) → cfg.Valid l ∧ u ∈ cfg.workers)
    (ht : ∀ l k, p.queued = some (l, k) → cfg.Valid l ∧ t ∈ cfg.workers) :
    ∀ u l k, (s'.lock.pc u).queued = some (l, k) → cfg.Valid l ∧ u ∈ cfg.workers := by
  intro u l k hu
  by_cases hut : u = t
  · subst hut
    rw [h.self.1] at hu
    exact ht l k hu
  · rw [(h.other hut).1] at hu
    exact hdrawn u l k hu

/-- The thread has to do with `l` only, before and after. -/
theorem Turn.near (h : Turn s s' t p ph)
    (hold : ∀ l' k, (s.lock.pc t).queued = some (l', k) → l' = l)
    (hnew : ∀ l' k, p.queued = some (l', k) → l' = l)
    (hflags : ∀ n l', l' ≠ l → (s'.lock.locals n l').handOver = (s.lock.locals n l').handOver)
    (hzeros : ∀ l', l' ≠ l → l' ∈ s.lock.zeros → l' ∈ s'.lock.zeros)
    (hbatch : ∀ l', l' ≠ l → s'.batch l' = s.batch l')
    (hrecord : ∀ n l', l' ≠ l → s'.record n l' = s.record n l') : Near s s' l := by
  refine ⟨fun u => ?_, hflags, hzeros, hbatch, hrecord⟩
  by_cases hu : u = t
  · subst hu
    rw [h.self.1]
    exact Or.inr ⟨hold, hnew⟩
  · exact Or.inl (h.other hu)

/-- The thread is outside of the critical section, before and after. -/
theorem Turn.still (h : Turn s s' t p ph) (hold : (s.lock.pc t).critical = none)
    (hnew : p.critical = none) (hnot : ∀ l, s.batch l ≠ some t)
    (hflags : ∀ n l, (s'.lock.locals n l).handOver = (s.lock.locals n l).handOver)
    (hzeros : s'.lock.zeros = s.lock.zeros) (hrest : s'.batch = s.batch ∧ s'.record = s.record) :
    Still s s' := by
  refine ⟨fun u => ?_, hflags, fun l _ hl => hzeros ▸ hl, hrest⟩
  by_cases hu : u = t
  · subst hu
    rw [h.self.1]
    exact Or.inr ⟨hold, hnew, hnot⟩
  · exact Or.inl (h.other hu)

theorem handOver_setLocal {lock : Handover.State} {n : Nat} {node : LocalLockNode}
    (hnode : node.handOver = (lock.locals n l).handOver) (n' : Nat) (l' : LockAddr) :
    ((lock.setLocal n l node).locals n' l').handOver = (lock.locals n' l').handOver := by
  simp only [Handover.State.setLocal]
  split
  · rename_i hat
    rw [hnode, hat.1, hat.2]
  · rfl

theorem locals_setLocal {lock : Handover.State} {n : Nat} {node : LocalLockNode} (hne : l' ≠ l)
    (n' : Nat) : (lock.setLocal n l node).locals n' l' = lock.locals n' l' := by
  simp only [Handover.State.setLocal]
  exact if_neg fun hat => hne hat.2

/-- No word was written. -/
structure SameWords (s s' : State) : Prop where
  mem : s'.mem = s.mem
  buf : s'.buf = s.buf
  lockAcqs : s'.lockAcqs = s.lockAcqs
  inc : s'.inc = s.inc

/-! ### What one step preserves -/

theorem Inv.not_batched (h : Inv cfg s loc) (hph : s.phase t ≠ .written) (l : LockAddr) :
    s.batch l ≠ some t := by
  intro hbatch
  exact hph ((h.atLock l).batched t hbatch).2.2.1

/-- A step that is about lock `l` only. -/
theorem Inv.locks_of_near {loc' : LockAddr → Option Thread} (h : Inv cfg s loc)
    (near : Near s s' l) (hloc : ∀ l', l' ≠ l → loc' l' = loc l')
    (hat : AtLock cfg s' loc' l) : ∀ l', AtLock cfg s' loc' l' := by
  intro l'
  by_cases hl : l' = l
  · exact hl ▸ hat
  · exact (h.atLock l').frame near hl (hloc l' hl)

/-- A step of a thread that writes no word. -/
theorem Inv.quiet (h : Inv cfg s loc) (hturn : Turn s s' t p ph) (hfits : Fits cfg ph p)
    (hdrawn : ∀ l k, p.queued = some (l, k) → cfg.Valid l ∧ t ∈ cfg.workers)
    (hwords : SameWords s s') (hat : ∀ l, AtLock cfg s' loc l) : Inv cfg s' loc where
  atLock := hat
  fits := hturn.fits h.fits hfits
  drawn := hturn.drawn h.drawn hdrawn
  inj := h.inj
  full l hl k hk := by
    have hcontent : content cfg s' loc l k = content cfg s loc l k := by
      unfold content
      rw [hwords.mem, hwords.buf]
    rw [hcontent, hwords.lockAcqs]
    exact h.full l hl k hk
  outside := by
    rw [hwords.mem]
    exact h.outside
  counted := by
    rw [hwords.inc, hwords.lockAcqs]
    exact h.counted

/-- `acquire_local_lock` takes a ticket. -/
theorem Inv.take (h : Inv cfg s loc) (hpc : s.lock.pc t = .idle) (hph : s.phase t = .out)
    (hl : cfg.Valid l) (ht : t ∈ cfg.workers) :
    Inv cfg { s with lock := Handover.takeTicket s.lock t l } loc := by
  have hturn : Turn s { s with lock := Handover.takeTicket s.lock t l } t _ .out :=
    ⟨rfl, by rw [← hph]; exact (Function.update_eq_self t s.phase).symm⟩
  have hstill : Still s { s with lock := Handover.takeTicket s.lock t l } := by
    refine hturn.still (by rw [hpc]; rfl) rfl (h.not_batched (by rw [hph]; decide)) ?_ rfl
      ⟨rfl, rfl⟩
    exact handOver_setLocal (LocalLockNode.fetchAdd_handOver _ _)
  refine h.quiet hturn trivial ?_ ⟨rfl, rfl, rfl, rfl⟩ fun l' => (h.atLock l').still hstill
  intro l' k hq
  cases hq
  exact ⟨hl, ht⟩

/-- A step of `try_lock_addr` that does not return. -/
theorem Inv.wait (h : Inv cfg s loc) {lock : Handover.State} (hph : s.phase t = .out)
    (hold : (s.lock.pc t).critical = none) (hnew : p.critical = none)
    (hlock : lock.pc = Function.update s.lock.pc t p) (hfits : Fits cfg .out p)
    (hdrawn : ∀ l k, p.queued = some (l, k) → ∃ k', (s.lock.pc t).queued = some (l, k'))
    (hflags : ∀ n l, (lock.locals n l).handOver = (s.lock.locals n l).handOver)
    (hzeros : lock.zeros = s.lock.zeros) :
    Inv cfg { s.setPhase t .out with lock := lock } loc := by
  have hturn : Turn s { s.setPhase t .out with lock := lock } t p .out := ⟨hlock, rfl⟩
  have hstill : Still s { s.setPhase t .out with lock := lock } :=
    hturn.still hold hnew (h.not_batched (by rw [hph]; decide)) hflags hzeros ⟨rfl, rfl⟩
  refine h.quiet hturn hfits ?_ ⟨rfl, rfl, rfl, rfl⟩ fun l' => (h.atLock l').still hstill
  intro l k hq
  obtain ⟨k', hk'⟩ := hdrawn l k hq
  exact h.drawn t l k' hk'

/-- `try_lock_addr` returns. -/
theorem Inv.enter (h : Inv cfg s loc) {lock : Handover.State} {handover : Bool}
    (hL : Handover.Inv lock) (hold : (s.lock.pc t).critical = none)
    (hqueued : (s.lock.pc t).queued = some (l, k))
    (hlock : lock.pc = Function.update s.lock.pc t (.holding l k handover))
    (hflags : ∀ n l, (lock.locals n l).handOver = (s.lock.locals n l).handOver)
    (hzeros : lock.zeros = s.lock.zeros) (hremote : handover = false → loc l = none) :
    Inv cfg { s.setPhase t .entered with lock := lock } loc := by
  have hturn : Turn s { s.setPhase t .entered with lock := lock } t (.holding l k handover)
      .entered := ⟨hlock, rfl⟩
  have hsole : Sole lock t l := sole hL (by rw [hturn.self.1]; rfl)
  have hnear : Near s { s.setPhase t .entered with lock := lock } l := by
    refine hturn.near ?_ ?_ (fun n l' _ => hflags n l') (fun l' _ hl' => hzeros ▸ hl')
      (fun _ _ => rfl) (fun _ _ _ => rfl)
    · intro l' k' hq
      rw [hqueued] at hq
      cases hq
      rfl
    · intro l' k' hq
      cases hq
      rfl
  have hat : AtLock cfg { s.setPhase t .entered with lock := lock } loc l :=
    (h.atLock l).enter hsole hturn.self.1 hturn.self.2 hold (fun u hu => (hturn.other hu).1)
      (fun n => hflags n l) hzeros ⟨rfl, rfl⟩ hremote
  refine h.quiet hturn trivial ?_ ⟨rfl, rfl, rfl, rfl⟩ (h.locks_of_near hnear (fun _ _ => rfl) hat)
  intro l' k' hq
  cases hq
  exact h.drawn t l k hqueued

theorem Turn.stay (hpc : s.lock.pc t = p) (hlock : s'.lock = s.lock)
    (hphase : s'.phase = Function.update s.phase t ph) : Turn s s' t p ph := by
  refine ⟨?_, hphase⟩
  rw [hlock, ← hpc]
  exact (Function.update_eq_self t s.lock.pc).symm

/-- A step of the thread that holds `l`, seen from the other locks. -/
theorem Turn.near_of_critical (h : Turn s s' t p ph) (hcrit : (s.lock.pc t).critical = some l)
    (hnew : ∀ l' k, p.queued = some (l', k) → l' = l)
    (hflags : ∀ n l', l' ≠ l → (s'.lock.locals n l').handOver = (s.lock.locals n l').handOver)
    (hzeros : ∀ l', l' ≠ l → l' ∈ s.lock.zeros → l' ∈ s'.lock.zeros)
    (hbatch : ∀ l', l' ≠ l → s'.batch l' = s.batch l')
    (hrecord : ∀ n l', l' ≠ l → s'.record n l' = s.record n l') : Near s s' l := by
  obtain ⟨k, hk⟩ := queued_of_critical hcrit
  refine h.near (fun l' k' hq => ?_) hnew hflags hzeros hbatch hrecord
  rw [hk] at hq
  cases hq
  rfl

/-- While somebody is critical no page write of the lock is posted. -/
theorem Inv.batch_none (h : Inv cfg s loc) (hsole : Sole s.lock t l) : s.batch l = none := by
  cases hbatch : s.batch l with
  | none => rfl
  | some u => exact absurd ((h.atLock l).batched u hbatch).2.1 hsole.zero

/-- A worker that may read a page has no other page in its buffer. -/
theorem Inv.buffer_free (h : Inv cfg s loc) (hcopied : Copied cfg s (.run t))
    (hcrit : (s.lock.pc t).critical = some l) (hph : s.phase t = .entered) (hne : l' ≠ l) :
    loc l' ≠ some t := by
  intro hat
  have hother : (s.lock.pc t).critical ≠ some l' := by
    rw [hcrit]
    exact fun heq => hne (Option.some.inj heq).symm
  rcases (h.atLock l').source t hat with ⟨hcrit', -⟩ | hbatch | ⟨hdata, hpending⟩
  · exact hother hcrit'
  · exact h.not_batched (by rw [hph]; decide) l' hbatch
  · exact hcopied hdata hph l' hother hpending

/-- **What `mb_lock` leaves in the buffer are the words that count.** -/
theorem Inv.mbLock_eq (h : Inv cfg s loc) (H : Handover.Inv s.lock) {handover : Bool}
    (hpc : s.lock.pc t = .holding l k handover) (hph : s.phase t = .entered) :
    mbLock cfg s t l handover = content cfg s loc l := by
  have hsole : Sole s.lock t l := sole H (by rw [hpc]; rfl)
  cases handover with
  | false =>
      have hloc := (h.atLock l).remote t k hpc hph
      simp [mbLock, content, hloc]
  | true =>
      have hflag : (s.lock.locals t.node l).handOver = true := H.flags t l true (by rw [hpc]; rfl)
      have hhanded := (h.atLock l).handed t.node hflag fun u _ hu => by
        rw [hsole.only u hu]
        exact hph
      cases hdata : cfg.handoverData with
      | false =>
          rw [hdata, if_neg Bool.false_ne_true] at hhanded
          simp [mbLock, content, hhanded, hdata]
      | true =>
          rw [hdata, if_pos rfl] at hhanded
          obtain ⟨u, hrecord, -, hloc⟩ := hhanded
          simp [mbLock, content, hloc, hdata, hrecord]

/-- The page is copied or read into the buffer. -/
theorem Inv.load (h : Inv cfg s loc) (H : Handover.Inv s.lock) {handover : Bool}
    (hcopied : Copied cfg s (.run t)) (hpc : s.lock.pc t = .holding l k handover)
    (hph : s.phase t = .entered) :
    Inv cfg { s.setPhase t .loaded with
      buf := Function.update s.buf t (mbLock cfg s t l handover) }
      (Function.update loc l (some t)) := by
  have hcrit : (s.lock.pc t).critical = some l := by rw [hpc]; rfl
  have hsole : Sole s.lock t l := sole H hcrit
  have hturn : Turn s { s.setPhase t .loaded with
      buf := Function.update s.buf t (mbLock cfg s t l handover) } t (.holding l k handover)
      .loaded := .stay hpc rfl rfl
  have hfree : ∀ l', l' ≠ l → loc l' ≠ some t := fun _ => h.buffer_free hcopied hcrit hph
  have hnear := hturn.near_of_critical hcrit (fun l' k' hq => by cases hq; rfl)
    (fun _ _ _ => rfl) (fun _ _ hl => hl) (fun _ _ => rfl) (fun _ _ _ => rfl)
  have hph' := hturn.self.2
  constructor
  case atLock =>
    refine h.locks_of_near hnear (fun l' hne => Function.update_of_ne hne ..) ?_
    refine .held hsole (h.batch_none hsole) (by rw [hph']; decide) ?_ ?_
    · rw [hph', Function.update_self]
      rfl
    · intro k' hpc'
      rw [hturn.self.1] at hpc'
      cases hpc'
  case fits => exact hturn.fits h.fits trivial
  case drawn =>
    refine hturn.drawn h.drawn fun l' k' hq => ?_
    cases hq
    exact h.drawn t l k (by rw [hpc]; rfl)
  case inj =>
    intro l₁ l₂ u h₁ h₂
    by_cases hl₁ : l₁ = l <;> by_cases hl₂ : l₂ = l
    · rw [hl₁, hl₂]
    · subst hl₁
      rw [Function.update_self] at h₁
      rw [Function.update_of_ne hl₂, ← h₁] at h₂
      exact absurd h₂ (hfree l₂ hl₂)
    · subst hl₂
      rw [Function.update_self] at h₂
      rw [Function.update_of_ne hl₁, ← h₂] at h₁
      exact absurd h₁ (hfree l₁ hl₁)
    · rw [Function.update_of_ne hl₁] at h₁
      rw [Function.update_of_ne hl₂] at h₂
      exact h.inj l₁ l₂ u h₁ h₂
  case full =>
    intro l' hl' k' hk'
    refine Eq.trans ?_ (h.full l' hl' k' hk')
    by_cases hne : l' = l
    · subst hne
      simp only [content, Function.update_self]
      exact congrFun (h.mbLock_eq H hpc hph) k'
    · simp only [content, Function.update_of_ne hne]
      cases hloc : loc l' with
      | none => rfl
      | some u =>
          have hu : u ≠ t := by
            rintro rfl
            exact hfree l' hne hloc
          simp only [Function.update_of_ne hu]
  case outside => exact h.outside
  case counted => exact h.counted

theorem Config.mem_locks : l ∈ cfg.locks ↔ cfg.Valid l := by
  unfold Config.locks Config.Valid
  simp only [Finset.mem_map, Finset.mem_product, Finset.mem_range]
  constructor
  · rintro ⟨p, hp, rfl⟩
    exact hp
  · intro hl
    exact ⟨(l.nodeID, l.index), hl, rfl⟩

theorem sum_update {ι : Type*} [DecidableEq ι] {fin : Finset ι} {f : ι → Nat} {i : ι} (hi : i ∈ fin)
    (x : Nat) : ∑ j ∈ fin, Function.update f i (f i + x) j = ∑ j ∈ fin, f j + x := by
  have hsum := Finset.add_sum_erase fin f hi
  rw [Finset.sum_update_of_mem hi, Finset.sdiff_singleton_eq_erase]
  omega

/-- The words are counted up. -/
theorem Inv.work (h : Inv cfg s loc) (H : Handover.Inv s.lock) {handover : Bool}
    (hpc : s.lock.pc t = .holding l k handover) (hph : s.phase t = .loaded) :
    Inv cfg (work s t l) loc := by
  have hcrit : (s.lock.pc t).critical = some l := by rw [hpc]; rfl
  have hsole : Sole s.lock t l := sole H hcrit
  have hloc : loc l = some t := (h.atLock l).mine t hcrit (by rw [hph]; rfl)
  obtain ⟨hvalid, hworker⟩ := h.drawn t l k (by rw [hpc]; rfl)
  have hturn : Turn s (Bench.work s t l) t (.holding l k handover) .changed := .stay hpc rfl rfl
  have hnear := hturn.near_of_critical hcrit (fun l' k' hq => by cases hq; rfl)
    (fun _ _ _ => rfl) (fun _ _ hl => hl) (fun _ _ => rfl) (fun _ _ _ => rfl)
  have hph' := hturn.self.2
  constructor
  case atLock =>
    refine h.locks_of_near hnear (fun _ _ => rfl) ?_
    refine .held hsole (h.batch_none hsole) (by rw [hph']; decide) (by rw [hph', hloc]; rfl) ?_
    intro k' hpc'
    rw [hturn.self.1] at hpc'
    cases hpc'
  case fits => exact hturn.fits h.fits trivial
  case drawn =>
    refine hturn.drawn h.drawn fun l' k' hq => ?_
    cases hq
    exact ⟨hvalid, hworker⟩
  case inj => exact h.inj
  case full =>
    intro l' hl' k' hk'
    have hold := h.full l' hl' k' hk'
    by_cases hne : l' = l
    · subst hne
      simp only [content, hloc] at hold
      simp only [content, hloc, Bench.work, Function.update_self, countUp, if_pos hk', hold]
      omega
    · rw [Bench.work]
      simp only [content, Function.update_of_ne hne] at hold ⊢
      cases hloc' : loc l' with
      | none =>
          simp only [hloc'] at hold
          exact hold
      | some u =>
          have hu : u ≠ t := by
            rintro rfl
            exact hne (h.inj l' l u hloc' hloc)
          simpa only [hloc', Function.update_of_ne hu] using hold
  case outside => exact h.outside
  case counted =>
    have hcounted := h.counted
    show ∑ u ∈ cfg.workers, Function.update s.inc t (s.inc t + dataLen) u =
      dataLen * ∑ l' ∈ cfg.locks, Function.update s.lockAcqs l (s.lockAcqs l + 1) l'
    rw [sum_update hworker, sum_update (Config.mem_locks.mpr hvalid), hcounted, Nat.mul_add_one]

theorem leaveRecord_record (n : Nat) (hne : l' ≠ l) :
    (leaveRecord cfg s t l).record n l' = s.record n l' := by
  unfold leaveRecord
  split
  · exact if_neg fun hat => hne hat.2
  · rfl

theorem leaveRecord_phase : (leaveRecord cfg s t l).phase = s.phase := by
  unfold leaveRecord
  split <;> rfl

theorem leaveRecord_batch : (leaveRecord cfg s t l).batch = s.batch := by
  unfold leaveRecord
  split <;> rfl

theorem leaveRecord_sameWords : SameWords s (leaveRecord cfg s t l) := by
  unfold leaveRecord
  split <;> exact ⟨rfl, rfl, rfl, rfl⟩

/-- `can_hand_over` answers, after the record was left. -/
theorem Inv.decide (h : Inv cfg s loc) (H : Handover.Inv s.lock) {handover : Bool}
    {lock : Handover.State} (hL : Handover.Inv lock)
    (hpc : s.lock.pc t = .holding l k handover) (hph : s.phase t = .changed)
    (hlock : lock = (s.lock.setLocal t.node l
      ((s.lock.locals t.node l).canHandOver cfg.limit)).setPc t
        (if ((s.lock.locals t.node l).canHandOver cfg.limit).handOver then .handing l k
          else .releasing l k)) :
    Inv cfg { (leaveRecord cfg s t l).setPhase t .unlocking with lock := lock } loc := by
  have hcrit : (s.lock.pc t).critical = some l := by rw [hpc]; rfl
  have hloc : loc l = some t := (h.atLock l).mine t hcrit (by rw [hph]; rfl)
  have hphase : (leaveRecord cfg s t l).phase = s.phase := leaveRecord_phase
  have hbatch : (leaveRecord cfg s t l).batch = s.batch := leaveRecord_batch
  have hwords : SameWords s (leaveRecord cfg s t l) := leaveRecord_sameWords
  generalize hp : (if ((s.lock.locals t.node l).canHandOver cfg.limit).handOver
    then Handover.Pc.handing l k else .releasing l k) = p at hlock
  have hp' : p = .handing l k ∧ ((s.lock.locals t.node l).canHandOver cfg.limit).handOver = true ∨
      p = .releasing l k := by
    split at hp
    · exact Or.inl ⟨hp.symm, by assumption⟩
    · exact Or.inr hp.symm
  have hcrit' : p.critical = some l := by
    rcases hp' with ⟨rfl, -⟩ | rfl <;> rfl
  have hqueued : p.queued = some (l, k) := by
    rcases hp' with ⟨rfl, -⟩ | rfl <;> rfl
  have hturn : Turn s { (leaveRecord cfg s t l).setPhase t .unlocking with lock := lock } t p
      .unlocking :=
    ⟨by rw [hlock]; rfl, by rw [← hphase]; rfl⟩
  have hsole : Sole lock t l := sole hL (by rw [hturn.self.1]; exact hcrit')
  have hnear : Near s { (leaveRecord cfg s t l).setPhase t .unlocking with lock := lock } l := by
    refine hturn.near_of_critical hcrit ?_ ?_ ?_ ?_ fun n l' hne => leaveRecord_record n hne
    · intro l' k' hq
      rw [hqueued] at hq
      cases hq
      rfl
    · intro n l' hne
      rw [hlock]
      exact congrArg LocalLockNode.handOver (locals_setLocal hne n)
    · intro l' _ hl'
      rw [hlock]
      exact hl'
    · exact fun l' _ => congrFun hbatch l'
  have hfits : Fits cfg .unlocking p := by
    rcases hp' with ⟨rfl, -⟩ | rfl <;> trivial
  refine h.quiet hturn hfits ?_ ⟨hwords.mem, hwords.buf, hwords.lockAcqs, hwords.inc⟩
    (h.locks_of_near hnear (fun _ _ => rfl) ?_)
  · intro l' k' hq
    rw [hqueued] at hq
    cases hq
    exact h.drawn t l k (by rw [hpc]; rfl)
  · have hph' := hturn.self.2
    have hnone := (congrFun hbatch l).trans (h.batch_none (sole H hcrit))
    refine .held hsole hnone (by rw [hph']; decide) (by rw [hph', hloc]; rfl) ?_
    intro k' hpc' _
    rw [hturn.self.1] at hpc'
    rcases hp' with ⟨-, hyes⟩ | rfl
    · -- a build that does not hand over has a limit of 0
      have hhandover : cfg.handover = true := by
        by_contra hno
        simp [LocalLockNode.canHandOver, Config.limit, hno] at hyes
      show (leaveRecord cfg s t l).record t.node l = _
      rw [leaveRecord, if_pos hhandover]
      exact if_pos ⟨rfl, rfl⟩
    · cases hpc'

/-- The words go from a buffer to memory. -/
theorem Inv.put (h : Inv cfg s loc) (hap : cfg.Apart) (hvalid : cfg.Valid l)
    (hloc : loc l = some t) (hmem : s'.mem = writePage s.mem (cfg.baseAddr l) (s.buf t))
    (hbuf : s'.buf = s.buf) (hacqs : s'.lockAcqs = s.lockAcqs) (hinc : s'.inc = s.inc)
    (hat : ∀ l', AtLock cfg s' (Function.update loc l none) l')
    (hfits : ∀ u, Fits cfg (s'.phase u) (s'.lock.pc u))
    (hdrawn : ∀ u l k, (s'.lock.pc u).queued = some (l, k) → cfg.Valid l ∧ u ∈ cfg.workers) :
    Inv cfg s' (Function.update loc l none) where
  atLock := hat
  fits := hfits
  drawn := hdrawn
  inj l₁ l₂ u h₁ h₂ := by
    have hold : ∀ l', Function.update loc l none l' = some u → loc l' = some u := by
      intro l' hl'
      by_cases hne : l' = l
      · rw [hne, Function.update_self] at hl'
        cases hl'
      · rwa [Function.update_of_ne hne] at hl'
    exact h.inj l₁ l₂ u (hold l₁ h₁) (hold l₂ h₂)
  full l' hl' k' hk' := by
    have hold := h.full l' hl' k' hk'
    rw [hacqs, ← hold]
    by_cases hne : l' = l
    · subst hne
      simp only [content, hloc] at hold
      simp only [content, Function.update_self, hmem, hloc]
      exact readPage_writePage hk' (by rw [hold]; omega)
    · simp only [content, Function.update_of_ne hne, hmem, hbuf]
      cases loc l' with
      | none => exact hap.readPage_writePage hne hk'
      | some u => rfl
  outside n x hx := by
    rw [hmem, writePage_of_not (hx l hvalid)]
    exact h.outside n x hx
  counted := by
    rw [hinc, hacqs]
    exact h.counted

/-- The page is written by the thread that is about to let the lock go. -/
theorem Inv.writeBack (h : Inv cfg s loc) (H : Handover.Inv s.lock) (hap : cfg.Apart)
    (hcrit : (s.lock.pc t).critical = some l) (hph : s.phase t = .unlocking)
    (hfits : Fits cfg .written (s.lock.pc t)) :
    Inv cfg ((s.writePage (cfg.baseAddr l) (s.buf t)).setPhase t .written)
      (Function.update loc l none) := by
  have hsole : Sole s.lock t l := sole H hcrit
  have hloc : loc l = some t := (h.atLock l).mine t hcrit (by rw [hph]; rfl)
  obtain ⟨k, hk⟩ := queued_of_critical hcrit
  have hdrawn := fun l' k' hq => h.drawn t l' k' hq
  have hturn : Turn s ((s.writePage (cfg.baseAddr l) (s.buf t)).setPhase t .written) t
      (s.lock.pc t) .written := .stay rfl rfl rfl
  have hnear := hturn.near_of_critical hcrit (fun l' k' hq => by rw [hk] at hq; cases hq; rfl)
    (fun _ _ _ => rfl) (fun _ _ hl => hl) (fun _ _ => rfl) (fun _ _ _ => rfl)
  have hph' := hturn.self.2
  refine h.put hap (hdrawn l k hk).1 hloc rfl rfl rfl rfl ?_ (hturn.fits h.fits hfits)
    (hturn.drawn h.drawn hdrawn)
  refine h.locks_of_near hnear (fun l' hne => Function.update_of_ne hne ..) ?_
  refine .held hsole (h.batch_none hsole) (by rw [hph']; decide) ?_ ?_
  · rw [hph', Function.update_self]
    rfl
  · intro k' hpc' hdata
    rw [show s.lock.pc t = .handing l k' from hpc'] at hfits
    exact absurd (hdata.symm.trans hfits) Bool.true_eq_false.mp

/-- The write of 0 is posted, after the page was written or behind the write of it. -/
theorem Inv.post (h : Inv cfg s loc) {lock : Handover.State} (hL : Handover.Inv lock)
    (hpc : s.lock.pc t = .releasing l k)
    (hlock : lock = { s.lock.setPc t (.posted l k true) with zeros := l :: s.lock.zeros })
    (hturn : Turn s s' t (.posted l k true) .written) (hs' : s'.lock = lock)
    (hbatch : ∀ l', l' ≠ l → s'.batch l' = s.batch l') (hrecord : s'.record = s.record)
    (hwords : SameWords s s')
    (hwhere : s'.batch l = none ∧ loc l = none ∨ s'.batch l = some t ∧ loc l = some t) :
    Inv cfg s' loc := by
  have hzero : l ∈ s'.lock.zeros := by
    rw [hs', hlock]
    exact List.mem_cons_self ..
  have hnear : Near s s' l := by
    refine hturn.near_of_critical (by rw [hpc]; rfl) ?_ ?_ ?_ hbatch ?_
    · intro l' k' hq
      cases hq
      rfl
    · intro n l' _
      rw [hs', hlock]
      rfl
    · intro l' _ hl'
      rw [hs', hlock]
      exact List.mem_cons_of_mem _ hl'
    · exact fun n l' _ => by rw [hrecord]
  have hno : ∀ n, ¬ Owns s'.lock n l := by
    intro n hn
    rw [hs'] at hn hzero
    exact (hL.owned n l hn).2.2 hzero
  have hat : AtLock cfg s' loc l := by
    refine .unowned hno ?_
    rcases hwhere with hnone | ⟨hb, hloc⟩
    · exact Or.inl hnone
    · exact Or.inr ⟨t, hb, hloc, hzero, hturn.self.2, k, hturn.self.1⟩
  refine h.quiet hturn rfl ?_ hwords (h.locks_of_near hnear (fun _ _ => rfl) hat)
  intro l' k' hq
  cases hq
  exact h.drawn t l k (by rw [hpc]; rfl)

/-- The lock is left to the next thread of the node. -/
theorem Inv.pass (h : Inv cfg s loc) (H : Handover.Inv s.lock) (hpc : s.lock.pc t = .handing l k)
    (hloc : if cfg.handoverData then loc l = some t else loc l = none) :
    Inv cfg { s.setPhase t .out with lock := Handover.releaseLocal s.lock t l } loc := by
  have hcrit : (s.lock.pc t).critical = some l := by rw [hpc]; rfl
  have hsole : Sole s.lock t l := sole H hcrit
  have hturn : Turn s { s.setPhase t .out with lock := Handover.releaseLocal s.lock t l } t .idle
      .out := ⟨rfl, rfl⟩
  have hflags : ∀ n l', ((Handover.releaseLocal s.lock t l).locals n l').handOver =
      (s.lock.locals n l').handOver := handOver_setLocal (LocalLockNode.fetchAdd_handOver _ _)
  have hnear : Near s { s.setPhase t .out with lock := Handover.releaseLocal s.lock t l } l :=
    hturn.near_of_critical hcrit (fun _ _ hq => by cases hq) (fun n l' _ => hflags n l')
      (fun _ _ hl => hl) (fun _ _ => rfl) (fun _ _ _ => rfl)
  refine h.quiet hturn trivial (fun _ _ hq => by cases hq) ⟨rfl, rfl, rfl, rfl⟩
    (h.locks_of_near hnear (fun _ _ => rfl) ?_)
  refine .passed (t := t) ?_ (fun n hn => hsole.flag n ((hflags n l).symm.trans hn)) ?_
    (h.batch_none hsole) ?_
  · exact (hflags t.node l).trans (H.flags t l true (by rw [hpc]; rfl))
  · intro u hu
    by_cases hut : u = t
    · subst hut
      rw [hturn.self.1] at hu
      cases hu
    · rw [(hturn.other hut).1] at hu
      exact hut (hsole.only u hu)
  · split
    · rename_i hdata
      rw [if_pos hdata] at hloc
      exact ⟨(h.atLock l).recorded t k hpc hdata, hloc⟩
    · rename_i hdata
      rwa [if_neg hdata] at hloc

/-- The local lock is let go behind the write of 0. -/
theorem Inv.leave (h : Inv cfg s loc) (hpc : s.lock.pc t = .posted l k true)
    (hzero : l ∉ s.lock.zeros) :
    Inv cfg { s.setPhase t .out with lock := Handover.releaseLocal s.lock t l } loc := by
  have hturn : Turn s { s.setPhase t .out with lock := Handover.releaseLocal s.lock t l } t .idle
      .out := ⟨rfl, rfl⟩
  have hnot : ∀ l', s.batch l' ≠ some t := by
    intro l' hbatch
    obtain ⟨-, hl', -, k', hpc'⟩ := (h.atLock l').batched t hbatch
    rw [hpc] at hpc'
    cases hpc'
    exact hzero hl'
  have hstill := hturn.still (by rw [hpc]; rfl) rfl hnot
    (handOver_setLocal (LocalLockNode.fetchAdd_handOver _ _)) rfl ⟨rfl, rfl⟩
  exact h.quiet hturn trivial (fun _ _ hq => by cases hq) ⟨rfl, rfl, rfl, rfl⟩
    fun l' => (h.atLock l').still hstill

/-- A posted page is written. -/
theorem Inv.landPage (h : Inv cfg s loc) (H : Handover.Inv s.lock) (hap : cfg.Apart)
    (hbatch : s.batch l = some t) :
    Inv cfg { s.writePage (cfg.baseAddr l) (s.buf t) with
      batch := Function.update s.batch l none } (Function.update loc l none) := by
  obtain ⟨hloc, hzero, -, k, hpc⟩ := (h.atLock l).batched t hbatch
  have hnear : Near s { s.writePage (cfg.baseAddr l) (s.buf t) with
      batch := Function.update s.batch l none } l :=
    ⟨fun _ => Or.inl ⟨rfl, rfl⟩, fun _ _ _ => rfl, fun _ _ hl => hl,
      fun l' hne => Function.update_of_ne hne .., fun _ _ _ => rfl⟩
  have hno : ∀ n, ¬ Owns s.lock n l := fun n hn => (H.owned n l hn).2.2 hzero
  refine h.put hap (h.drawn t l k (by rw [hpc]; rfl)).1 hloc rfl rfl rfl rfl ?_ h.fits h.drawn
  refine h.locks_of_near hnear (fun l' hne => Function.update_of_ne hne ..) (.unowned hno ?_)
  exact Or.inl ⟨Function.update_self .., Function.update_self ..⟩

/-- The write of 0 is executed. -/
theorem Inv.land (h : Inv cfg s loc) (hbatch : s.batch l = none) {lock : Handover.State}
    (hlock : lock = { s.lock with
      remote := Function.update s.lock.remote l 0, zeros := s.lock.zeros.erase l }) :
    Inv cfg { s with lock := lock } loc := by
  subst hlock
  have hstill : Still s { s with lock := { s.lock with
      remote := Function.update s.lock.remote l 0, zeros := s.lock.zeros.erase l } } := by
    refine ⟨fun _ => Or.inl ⟨rfl, rfl⟩, fun _ _ => rfl, fun l' hl' hmem => ?_, rfl, rfl⟩
    have hne : l' ≠ l := by
      rintro rfl
      exact hl' hbatch
    exact (List.mem_erase_of_ne hne).mpr hmem
  exact ⟨fun l' => (h.atLock l').still hstill, h.fits, h.drawn, h.inj, h.full, h.outside,
    h.counted⟩

/-- The loop of `acquire_local_lock`. -/
theorem Inv.spin (h : Inv cfg s loc) {ticket current : Nat} {lock : Handover.State}
    (hL : Handover.Inv lock) (hph : s.phase t = .out)
    (hpc : s.lock.pc t = .spin l ticket current)
    (hlock : Handover.runThread cfg.limit s.lock t true = some lock) :
    Inv cfg { s.setPhase t (entering (lock.pc t)) with lock := lock } loc := by
  have hold : (s.lock.pc t).critical = none := by rw [hpc]; rfl
  have hqueued : (s.lock.pc t).queued = some (l, ticket) := by rw [hpc]; rfl
  simp only [Handover.runThread, hpc] at hlock
  split at hlock
  · obtain rfl := Option.some.inj hlock
    cases hflag : (s.lock.locals t.node l).handOver with
    | true =>
        simp only [hflag, if_true, Handover.State.setPc, Function.update_self, entering] at hL ⊢
        exact h.enter hL hold hqueued rfl (handOver_setLocal rfl) rfl (fun hf => by cases hf)
    | false =>
        simp only [Bool.false_eq_true, if_false, Handover.State.setPc, Function.update_self,
          entering]
        exact h.wait hph hold rfl rfl trivial (fun l' k' hq => ⟨k', by rw [hpc]; exact hq⟩)
          (handOver_setLocal rfl) rfl
  · obtain rfl := Option.some.inj hlock
    simp only [Handover.State.setPc, Function.update_self, entering]
    exact h.wait hph hold rfl rfl trivial (fun l' k' hq => ⟨k', by rw [hpc]; exact hq⟩)
      (fun _ _ => rfl) rfl

/-- The loop around `cas_dm_sync`. -/
theorem Inv.cas (h : Inv cfg s loc) (H : Handover.Inv s.lock) {ticket : Nat}
    {lock : Handover.State} (hL : Handover.Inv lock) (hph : s.phase t = .out)
    (hpc : s.lock.pc t = .cas l ticket)
    (hlock : Handover.runThread cfg.limit s.lock t true = some lock) :
    Inv cfg { s.setPhase t (entering (lock.pc t)) with lock := lock } loc := by
  have hold : (s.lock.pc t).critical = none := by rw [hpc]; rfl
  have hqueued : (s.lock.pc t).queued = some (l, ticket) := by rw [hpc]; rfl
  simp only [Handover.runThread, hpc] at hlock
  split at hlock
  · split at hlock
    · rename_i hzero
      obtain rfl := Option.some.inj hlock
      have hremote : loc l = none := by
        refine (h.atLock l).free (fun n hn => (H.owned n l hn).1 hzero) ?_
        cases hbatch : s.batch l with
        | none => rfl
        | some u => exact absurd hzero (H.pending l ((h.atLock l).batched u hbatch).2.1)
      simp only [Handover.State.setPc, Function.update_self, entering] at hL ⊢
      exact h.enter hL hold hqueued rfl (fun _ _ => rfl) rfl (fun _ => hremote)
    · obtain rfl := Option.some.inj hlock
      rw [show entering (s.lock.pc t) = .out by rw [hpc]; rfl]
      exact h.wait hph hold hold (Function.update_eq_self t s.lock.pc).symm (by rw [hpc]; trivial)
        (fun l' k' hq => ⟨k', hq⟩) (fun _ _ => rfl) rfl
  · obtain rfl := Option.some.inj hlock
    simp only [Handover.State.setPc, Function.update_self, entering]
    exact h.wait hph hold rfl rfl trivial (fun _ _ hq => by cases hq) (fun _ _ => rfl) rfl

/-- The worker's step, by where it is. -/
theorem Inv.runWorker (h : Inv cfg s loc) (H : Handover.Inv s.lock) (H' : Handover.Inv s'.lock)
    (hap : cfg.Apart) (hcopied : Copied cfg s (.run t))
    (hstep : runWorker cfg s t = some s') : ∃ loc', Inv cfg s' loc' := by
  unfold Bench.runWorker at hstep
  split at hstep
  case h_1 hph hpc =>
    obtain ⟨lock, hlock, rfl⟩ := Option.map_eq_some_iff.mp hstep
    exact ⟨loc, h.spin H' hph hpc hlock⟩
  case h_2 hph hpc =>
    obtain ⟨lock, hlock, rfl⟩ := Option.map_eq_some_iff.mp hstep
    exact ⟨loc, h.cas H H' hph hpc hlock⟩
  case h_3 hph hpc =>
    obtain rfl := Option.some.inj hstep
    exact ⟨_, h.load H hcopied hpc hph⟩
  case h_4 hph hpc =>
    obtain rfl := Option.some.inj hstep
    exact ⟨loc, h.work H hpc hph⟩
  case h_5 l k handover hph hpc =>
    obtain ⟨lock, hlock, rfl⟩ := Option.map_eq_some_iff.mp hstep
    have hkeep : (leaveRecord cfg s t l).lock = s.lock := by
      unfold leaveRecord
      split <;> rfl
    rw [hkeep] at hlock
    simp only [Handover.runThread, hpc, Option.some.injEq] at hlock
    exact ⟨loc, h.decide H H' hpc hph hlock.symm⟩
  case h_6 l k hph hpc =>
    split at hstep
    · rename_i hdata
      obtain ⟨lock, hlock, rfl⟩ := Option.map_eq_some_iff.mp hstep
      simp only [Handover.runThread, hpc, Option.some.injEq] at hlock
      subst hlock
      refine ⟨loc, h.pass H hpc ?_⟩
      rw [if_pos hdata]
      exact (h.atLock l).mine t (by rw [hpc]; rfl) (by rw [hph]; rfl)
    · rename_i hdata
      obtain rfl := Option.some.inj hstep
      refine ⟨_, h.writeBack H hap (by rw [hpc]; rfl) hph ?_⟩
      rw [hpc]
      exact eq_false_of_ne_true hdata
  case h_7 l k hph hpc =>
    split at hstep
    · obtain ⟨lock, hlock, rfl⟩ := Option.map_eq_some_iff.mp hstep
      simp only [Handover.runThread, hpc, Option.some.injEq] at hlock
      subst hlock
      have hloc := (h.atLock l).mine t (by rw [hpc]; rfl) (by rw [hph]; rfl)
      refine ⟨loc, h.post H' hpc rfl ⟨rfl, rfl⟩ rfl ?_ rfl ⟨rfl, rfl, rfl, rfl⟩ ?_⟩
      · exact fun l' hne => Function.update_of_ne hne ..
      · exact Or.inr ⟨Function.update_self .., hloc⟩
    · obtain rfl := Option.some.inj hstep
      refine ⟨_, h.writeBack H hap (by rw [hpc]; rfl) hph ?_⟩
      rw [hpc]
      trivial
  case h_8 l k hph hpc =>
    obtain ⟨lock, hlock, rfl⟩ := Option.map_eq_some_iff.mp hstep
    simp only [Handover.runThread, hpc, Option.some.injEq] at hlock
    subst hlock
    have hfits := h.fits t
    rw [hph, hpc] at hfits
    refine ⟨loc, h.pass H hpc ?_⟩
    rw [if_neg (by rw [show cfg.handoverData = false from hfits]; decide)]
    exact (h.atLock l).written t (by rw [hpc]; rfl) hph
  case h_9 l k hph hpc =>
    obtain ⟨lock, hlock, rfl⟩ := Option.map_eq_some_iff.mp hstep
    simp only [Handover.runThread, hpc, Option.some.injEq] at hlock
    subst hlock
    have hcrit : (s.lock.pc t).critical = some l := by rw [hpc]; rfl
    refine ⟨loc, h.post H' hpc rfl ⟨rfl, rfl⟩ rfl (fun _ _ => rfl) rfl ⟨rfl, rfl, rfl, rfl⟩ ?_⟩
    exact Or.inl ⟨h.batch_none (sole H hcrit), (h.atLock l).written t hcrit hph⟩
  case h_10 l k sync hph hpc =>
    obtain ⟨lock, hlock, rfl⟩ := Option.map_eq_some_iff.mp hstep
    have hfits := h.fits t
    rw [hph, hpc] at hfits
    obtain rfl : sync = true := hfits
    simp only [Handover.runThread, hpc] at hlock
    split at hlock
    · cases hlock
    · rename_i hzero
      obtain rfl := Option.some.inj hlock
      exact ⟨loc, h.leave hpc fun hl => hzero ⟨trivial, hl⟩⟩
  case h_11 => cases hstep

/-- **One step.** -/
theorem Inv.step {a : Action} (h : Inv cfg s loc) (H : Handover.Inv s.lock)
    (H' : Handover.Inv s'.lock) (hap : cfg.Apart) (hcopied : Copied cfg s a)
    (hstep : step cfg s a = some s') : ∃ loc', Inv cfg s' loc' := by
  cases a with
  | acquire t idx =>
      simp only [Bench.step] at hstep
      split at hstep
      · rename_i hdraw
        obtain ⟨hworker, hidx, hph⟩ := hdraw
        obtain ⟨lock, hlock, rfl⟩ := Option.map_eq_some_iff.mp hstep
        simp only [Handover.step] at hlock
        split at hlock
        · rename_i hpc
          obtain rfl := Option.some.inj hlock
          refine ⟨loc, h.take hpc hph ⟨?_, ?_⟩ hworker⟩
          · exact Nat.div_lt_of_lt_mul hidx
          · exact Nat.div_lt_of_lt_mul (Nat.mul_comm cfg.lockNR cfg.mnNR ▸ hidx)
        · cases hlock
      · cases hstep
  | run t => exact h.runWorker H H' hap hcopied hstep
  | landPage l =>
      simp only [Bench.step] at hstep
      split at hstep
      · rename_i t hbatch
        obtain rfl := Option.some.inj hstep
        exact ⟨_, h.landPage H hap hbatch⟩
      · cases hstep
  | land l =>
      simp only [Bench.step] at hstep
      split at hstep
      · rename_i hbatch
        obtain ⟨lock, hlock, rfl⟩ := Option.map_eq_some_iff.mp hstep
        simp only [Handover.step] at hlock
        split at hlock
        · exact ⟨loc, h.land hbatch (Option.some.inj hlock).symm⟩
        · cases hlock
      · cases hstep

end Step

/-! ### Runs -/

section Runs

variable {cfg : Config} {s s' : State}

theorem inv_init : Inv cfg State.init fun _ => none where
  atLock _ := .unowned (fun _ hn => hn.elim (fun hf => nomatch hf) fun ⟨_, _, hc⟩ => nomatch hc)
    (Or.inl ⟨rfl, rfl⟩)
  fits _ := trivial
  drawn _ _ _ hq := nomatch hq
  inj _ _ _ hat := nomatch hat
  full l _ k _ := by
    show word (fun _ => 0) = 0 % 2 ^ 64
    rw [word_eq]
    rfl
  outside _ _ _ := rfl
  counted := by
    show ∑ t ∈ cfg.workers, 0 = dataLen * ∑ l ∈ cfg.locks, 0
    rw [Finset.sum_const_zero, Finset.sum_const_zero, Nat.mul_zero]

/-- What a step does to the lock is nothing, or a step of it. -/
theorem lock_step {a : Action} (hstep : step cfg s a = some s') :
    s'.lock = s.lock ∨ ∃ b, Handover.step cfg.limit s.lock b = some s'.lock := by
  have hleave : ∀ t l, (leaveRecord cfg s t l).lock = s.lock := by
    intro t l
    unfold leaveRecord
    split <;> rfl
  cases a with
  | acquire t idx =>
      simp only [step] at hstep
      split at hstep
      · obtain ⟨lock, hlock, rfl⟩ := Option.map_eq_some_iff.mp hstep
        exact Or.inr ⟨_, hlock⟩
      · cases hstep
  | run t =>
      have hrun : ∀ {r : State} {ph : Phase}, lockStep cfg r t ph = some s' → r.lock = s.lock →
          ∃ b, Handover.step cfg.limit s.lock b = some s'.lock := by
        intro r ph hs hr
        obtain ⟨lock, hlock, rfl⟩ := Option.map_eq_some_iff.mp hs
        exact ⟨.run t true, hr ▸ hlock⟩
      simp only [step, runWorker] at hstep
      split at hstep
      case h_1 | h_2 =>
        obtain ⟨lock, hlock, rfl⟩ := Option.map_eq_some_iff.mp hstep
        exact Or.inr ⟨.run t true, hlock⟩
      case h_3 | h_4 =>
        obtain rfl := Option.some.inj hstep
        exact Or.inl rfl
      case h_5 => exact Or.inr (hrun hstep (hleave _ _))
      case h_6 | h_7 =>
        split at hstep
        · exact Or.inr (hrun hstep rfl)
        · obtain rfl := Option.some.inj hstep
          exact Or.inl rfl
      case h_8 | h_9 | h_10 => exact Or.inr (hrun hstep rfl)
      case h_11 => cases hstep
  | landPage l =>
      simp only [step] at hstep
      split at hstep
      · obtain rfl := Option.some.inj hstep
        exact Or.inl rfl
      · cases hstep
  | land l =>
      simp only [step] at hstep
      split at hstep
      · obtain ⟨lock, hlock, rfl⟩ := Option.map_eq_some_iff.mp hstep
        exact Or.inr ⟨_, hlock⟩
      · cases hstep

theorem few_of_step {a : Action} (hstep : step cfg s a = some s') (hfew : Few s') : Few s := by
  intro n l
  rcases lock_step hstep with hsame | ⟨b, hb⟩
  · exact hsame ▸ hfew n l
  · exact Nat.lt_of_le_of_lt (Handover.acquisitions_le_step hb n l).1 (hfew n l)

/-- The lock of the benchmark is the one of `Dal.Handover`, and the words of every page are
in one place. -/
theorem reachable_inv (hap : cfg.Apart) (h : (machine cfg).ReachableBy (Copied cfg) s) :
    (Handover.machine cfg.limit).Reachable s.lock ∧ (Few s → ∃ loc, Inv cfg s loc) := by
  refine h.invariant (I := fun s => (Handover.machine cfg.limit).Reachable s.lock ∧
    (Few s → ∃ loc, Inv cfg s loc)) ?_ ?_
  · rintro s rfl
    exact ⟨⟨_, rfl, .refl⟩, fun _ => ⟨_, inv_init⟩⟩
  · rintro s a s' ⟨hlock, ih⟩ hcopied hstep
    have hlock' : (Handover.machine cfg.limit).Reachable s'.lock := by
      rcases lock_step hstep with hsame | ⟨b, hb⟩
      · exact hsame ▸ hlock
      · exact hlock.tail b trivial hb
    refine ⟨hlock', fun hfew' => ?_⟩
    have hfew := few_of_step hstep hfew'
    obtain ⟨loc, hinv⟩ := ih hfew
    exact hinv.step (Handover.inv_of_reachable hlock hfew)
      (Handover.inv_of_reachable hlock' hfew') hap hcopied hstep

/-- When every lock word is 0 all the words are in memory. -/
theorem Inv.at_rest {loc : LockAddr → Option Thread} (h : Inv cfg s loc) (H : Handover.Inv s.lock)
    {l : LockAddr} (hzero : s.lock.remote l = 0) : loc l = none := by
  refine (h.atLock l).free (fun n hn => (H.owned n l hn).1 hzero) ?_
  cases hbatch : s.batch l with
  | none => rfl
  | some t => exact absurd hzero (H.pending l ((h.atLock l).batched t hbatch).2.1)

/-- A word that is no word of a page is 0. -/
theorem Inv.word_zero {loc : LockAddr → Option Thread} (h : Inv cfg s loc) {n i : Nat}
    (hout : ∀ l, cfg.Valid l → ∀ j < 8, ¬ InPage cfg l n (8 * i + j)) :
    (word fun j => s.mem n (8 * i + j)) = 0 := by
  have hbytes : ∀ j < 8, s.mem n (8 * i + j) = (fun _ => 0) j :=
    fun j hj => h.outside n _ fun l hl => hout l hl j hj
  rw [word_congr hbytes, word_eq]

/-- **The words that are added up are those of the pages, and zeros.** -/
theorem Inv.sum_pages {loc : LockAddr → Option Thread} (h : Inv cfg s loc) (hap : cfg.Apart) :
    ∑ n ∈ Finset.range cfg.mnNR, datasum cfg s n =
      ∑ l ∈ cfg.locks, ∑ k ∈ Finset.range dataLen, readPage s.mem (cfg.baseAddr l) k := by
  obtain ⟨C, hC⟩ := hap.aligned
  have hpage := hap.disjoint
  have hdata : dataLen = 128 := rfl
  have hsize : pageSize = 1024 := rfl
  have hfit : ∀ l, cfg.Valid l → C * l.index + C ≤ cfg.dsmSize * 2 ^ 30 / 8 := by
    intro l hl
    have hchunk : cfg.chunkSize * cfg.lockNR ≤ cfg.dsmSize * 2 ^ 30 := Nat.div_mul_le_self _ _
    have hindex := Nat.mul_le_mul_left C (Nat.succ_le_of_lt hl.2)
    rw [Nat.mul_succ] at hindex
    rw [hC, Nat.mul_assoc] at hchunk
    omega
  have hoff : ∀ l, (cfg.baseAddr l).offset = 8 * (C * l.index) := by
    intro l
    show cfg.chunkSize * l.index = _
    rw [hC, Nat.mul_assoc]
  unfold datasum
  rw [← Finset.sum_product', ← Finset.sum_product']
  symm
  refine Finset.sum_of_injOn (fun p => (p.1.nodeID, C * p.1.index + p.2)) ?_ ?_ ?_ ?_
  · rintro ⟨l, k⟩ hp ⟨l', k'⟩ hp' heq
    simp only [Finset.coe_product, Set.mem_prod, Finset.mem_coe, Finset.mem_range] at hp hp'
    simp only [Prod.mk.injEq] at heq
    have hl : l = l' := by
      by_contra hne
      refine hap.not_inPage (n := l.nodeID) (x := 8 * (C * l.index + k)) hne ?_ ?_
      · refine ⟨rfl, ?_, ?_⟩ <;> rw [hoff] <;> omega
      · refine ⟨heq.1.symm, ?_, ?_⟩ <;> rw [hoff] <;> omega
    subst hl
    exact Prod.ext rfl (by omega)
  · rintro ⟨l, k⟩ hp
    simp only [Finset.coe_product, Set.mem_prod, Finset.mem_coe, Finset.mem_range,
      Config.mem_locks] at hp ⊢
    have := hfit l hp.1
    exact ⟨hp.1.1, by omega⟩
  · rintro ⟨n, i⟩ _ hnot
    refine h.word_zero fun l hl j hj => ?_
    rintro ⟨hnode, hlo, hhi⟩
    rw [hoff] at hlo hhi
    refine hnot ⟨(l, i - C * l.index), ?_, ?_⟩
    · simp only [Finset.coe_product, Set.mem_prod, Finset.mem_coe, Finset.mem_range,
        Config.mem_locks]
      exact ⟨hl, by omega⟩
    · simp only [Prod.mk.injEq]
      exact ⟨hnode, by omega⟩
  · rintro ⟨l, k⟩ _
    refine word_congr fun j _ => ?_
    show s.mem l.nodeID ((cfg.baseAddr l).offset + 8 * k + j) = _
    rw [hoff, Nat.mul_add]

/--
**No increment is lost.**  If pages are aligned to words and do not overlap, then in
every run in which a page handed over is copied before its buffer is used again, and no
local lock is acquired `2 ^ 32` times, whenever every lock is back at its memory node
each word of a page is the number of acquisitions of its lock, and the words of all
memory nodes add up to what the workers have counted.
-/
theorem conserved_at_rest (hap : cfg.Apart) (h : (machine cfg).ReachableBy (Copied cfg) s)
    (hfew : Few s) (hrest : ∀ l, s.lock.remote l = 0) : Conserved cfg s := by
  obtain ⟨hlock, hinv⟩ := reachable_inv hap h
  obtain ⟨loc, hinv⟩ := hinv hfew
  have H := Handover.inv_of_reachable hlock hfew
  have hwords : ∀ l, cfg.Valid l → ∀ k < dataLen,
      readPage s.mem (cfg.baseAddr l) k = s.lockAcqs l % 2 ^ 64 := by
    intro l hl k hk
    have hfull := hinv.full l hl k hk
    rwa [content, hinv.at_rest H (hrest l)] at hfull
  refine ⟨hwords, ?_⟩
  rw [hinv.sum_pages hap, hinv.counted, Finset.mul_sum, Finset.sum_nat_mod,
    Finset.sum_nat_mod (f := fun l => dataLen * s.lockAcqs l)]
  refine congrArg (· % 2 ^ 64) (Finset.sum_congr rfl fun l hl => ?_)
  rw [Finset.sum_const_nat fun k hk =>
    hwords l (Config.mem_locks.mp hl) k (Finset.mem_range.mp hk), Finset.card_range,
    Nat.mul_mod_mod]

end Runs

/-! ### Two runs -/

theorem few_of_exec {cfg : Config} {as : List Action} {s : State}
    (h : (machine cfg).exec State.init as = some s) (hlen : as.length < 2 ^ 32) : Few s := by
  intro n l
  have hone : ∀ s a s', (machine cfg).step s a = some s' →
      s'.lock.acquisitions n l ≤ s.lock.acquisitions n l + 1 := by
    intro s a s' hstep
    have hstep : step cfg s a = some s' := hstep
    rcases lock_step hstep with hsame | ⟨b, hb⟩
    · rw [hsame]
      exact Nat.le_succ _
    · exact (Handover.acquisitions_le_step hb n l).2
  have hle := System.count_le_exec hone as h
  have hinit : State.init.lock.acquisitions n l = 0 := rfl
  omega

/-- A build that does not hand pages over has nothing to copy. -/
theorem reachableBy_of_exec {cfg : Config} {as : List Action} {s : State}
    (hdata : cfg.handoverData = false) (h : (machine cfg).exec State.init as = some s) :
    (machine cfg).ReachableBy (Copied cfg) s := by
  refine ⟨_, rfl, System.path_of_exec_of as (fun s a _ => ?_) h⟩
  cases a with
  | run t =>
      intro hyes
      rw [hdata] at hyes
      cases hyes
  | _ => trivial

theorem update_back {l₀ : LockAddr} (x : Nat) (l : LockAddr) :
    Function.update (Function.update (fun _ => 0) l₀ x) l₀ 0 l = 0 := by
  by_cases hl : l = l₀
  · rw [hl, Function.update_self]
  · rw [Function.update_of_ne hl, Function.update_of_ne hl]

/-- No worker is about to read a page. -/
def Unread (s : State) : Action → Prop
  | .run t => s.phase t ≠ .entered
  | _ => True

instance (s : State) : ∀ action, Decidable (Unread s action)
  | .run t => inferInstanceAs (Decidable (s.phase t ≠ .entered))
  | .acquire _ _ | .landPage _ | .land _ => isTrue trivial

theorem copied_of_unread (cfg : Config) (s : State) (action : Action) (h : Unread s action) :
    Copied cfg s action := by
  cases action with
  | run t => exact fun _ hentered => absurd hentered h
  | _ => trivial

/-- Two workers of a node, and a memory node with two locks. -/
def sample (a b : Thread) : Config where
  mnNR := 1
  lockNR := 2
  dsmSize := 1
  maxHandover := 16
  handover := true
  handoverData := true
  batched := true
  workers := {a, b}

theorem sample_apart (a b : Thread) : (sample a b).Apart where
  aligned := by
    show 8 ∣ 1 * 2 ^ 30 / 2
    decide
  disjoint := by
    show 1024 ≤ 1 * 2 ^ 30 / 2
    decide

/-- `a` is about to read the page of lock 1. -/
def firstIn (a : Thread) : List Action := [.acquire a 1, .run a, .run a]

/-- `a` hands the lock over with the page in its buffer, and `b` is about to copy it. -/
def handedOn (a b : Thread) : List Action :=
  [.acquire b 1, .run a, .run a, .run a, .run b, .run b]

/-- `a` is about to read the page of lock 0 into the same buffer. -/
def usedAgain (a : Thread) : List Action := [.acquire a 0, .run a, .run a]

/-- Both write their pages, in one batch with the lock word each. -/
def bothOut (a b : Thread) : List Action :=
  [.run a, .run a, .run a, .landPage ⟨0, 0⟩, .land ⟨0, 0⟩, .run a,
    .run b, .run b, .run b, .landPage ⟨0, 1⟩, .land ⟨0, 1⟩, .run b]

def handedRun (a b : Thread) : List Action :=
  firstIn a ++ .run a :: handedOn a b ++ .run b :: usedAgain a ++ .run a :: bothOut a b

/-- The record of lock 1 has the page of thread `a`, the others have none. -/
def leftBy (a : Thread) (page : GlobalAddress) (n : Nat) (l : LockAddr) : Record :=
  if n = 0 ∧ l = ⟨0, 1⟩ then ⟨some a, page⟩ else ⟨none, .Null⟩

theorem leftBy_pageBuffer {a t : Thread} {page : GlobalAddress} {n : Nat} {l : LockAddr}
    (h : (leftBy a page n l).pageBuffer = some t) : t = a ∧ l = ⟨0, 1⟩ := by
  unfold leftBy at h
  split at h
  · rename_i hl
    exact ⟨(Option.some_inj.mp h).symm, hl.2⟩
  · cases h

/-- The page goes from `a` to `b`, and `a` has used its buffer again before `b` writes. -/
theorem conserved_at_rest_handed : ∃ s,
    (machine (sample ⟨0, 0, by decide⟩ ⟨0, 1, by decide⟩)).exec State.init
      (handedRun ⟨0, 0, by decide⟩ ⟨0, 1, by decide⟩) = some s ∧
    s.lockAcqs ⟨0, 1⟩ = 2 ∧ s.lockAcqs ⟨0, 0⟩ = 1 ∧
    Conserved (sample ⟨0, 0, by decide⟩ ⟨0, 1, by decide⟩) s := by
  generalize ha : (⟨0, 0, by decide⟩ : Thread) = a
  generalize hb : (⟨0, 1, by decide⟩ : Thread) = b
  have hrun : ∃ s₁ t₁ s₂ t₂ s₃ t₃ s,
      (((machine (sample a b)).restrict Unread).exec State.init (firstIn a) = some s₁ ∧
        step (sample a b) s₁ (.run a) = some t₁) ∧
      (((machine (sample a b)).restrict Unread).exec t₁ (handedOn a b) = some s₂ ∧
        step (sample a b) s₂ (.run b) = some t₂) ∧
      (((machine (sample a b)).restrict Unread).exec t₂ (usedAgain a) = some s₃ ∧
        step (sample a b) s₃ (.run a) = some t₃) ∧
      ((machine (sample a b)).restrict Unread).exec t₃ (bothOut a b) = some s ∧
      s₁.record = (fun _ _ => ⟨none, .Null⟩) ∧ s₂.record = leftBy a ⟨0, 2 ^ 29⟩ ∧
      s₃.record = leftBy a ⟨0, 2 ^ 29⟩ ∧ s₃.phase b = .loaded ∧
      (s₃.lock.pc b).critical = some ⟨0, 1⟩ ∧
      s.lockAcqs ⟨0, 1⟩ = 2 ∧ s.lockAcqs ⟨0, 0⟩ = 1 ∧
      (machine (sample a b)).exec State.init (handedRun a b) = some s ∧
      s.lock.remote = Function.update (Function.update (Function.update (Function.update
        (fun _ => 0) ⟨0, 1⟩ 1) ⟨0, 0⟩ 1) ⟨0, 0⟩ 0) ⟨0, 1⟩ 0 := by
    subst ha hb
    exact ⟨_, _, _, _, _, _, _, ⟨rfl, rfl⟩, ⟨rfl, rfl⟩, ⟨rfl, rfl⟩, rfl, rfl, rfl, rfl, rfl, rfl,
      rfl, rfl, rfl, rfl⟩
  obtain ⟨s₁, t₁, s₂, t₂, s₃, t₃, s, ⟨hs₁, ht₁⟩, ⟨hs₂, ht₂⟩, ⟨hs₃, ht₃⟩, hs, hnone, hleft, hleft',
    hloaded, hcritical, hacqs, hacqs', hall, hremote⟩ := hrun
  have hab : b ≠ a := by
    subst ha hb
    decide
  have hnode : b.node = a.node := by
    subst ha hb
    rfl
  have hunread := copied_of_unread (sample a b)
  -- the first read: no page was handed over yet
  have hfirst : Copied (sample a b) s₁ (.run a) := fun _ _ l _ hpending => by
    have hbuffer := hpending.2.1
    rw [hnone] at hbuffer
    cases hbuffer
  -- `b` reads into its own buffer
  have hsecond : Copied (sample a b) s₂ (.run b) := fun _ _ l _ hpending => by
    have hbuffer := hpending.2.1
    rw [hleft] at hbuffer
    exact hab (leftBy_pageBuffer hbuffer).1
  -- `a` reads into the buffer that `b` has copied
  have hthird : Copied (sample a b) s₃ (.run a) := fun _ _ l _ hpending => by
    have hbuffer := hpending.2.1
    rw [hleft'] at hbuffer
    obtain ⟨-, rfl⟩ := leftBy_pageBuffer hbuffer
    have hentered := hpending.2.2 b hnode hcritical
    rw [hloaded] at hentered
    cases hentered
  have hreach : (machine (sample a b)).ReachableBy (Copied (sample a b)) s :=
    ⟨State.init, rfl, ((((((System.path_of_restrict _ hs₁).mono hunread).tail _ hfirst ht₁).trans
      ((System.path_of_restrict _ hs₂).mono hunread)).tail _ hsecond ht₂).trans
      ((System.path_of_restrict _ hs₃).mono hunread)).tail _ hthird ht₃ |>.trans
      ((System.path_of_restrict _ hs).mono hunread)⟩
  have hlen : (handedRun a b).length = 27 := rfl
  refine ⟨s, hall, hacqs, hacqs', conserved_at_rest (sample_apart a b) hreach
    (few_of_exec hall (by rw [hlen]; decide)) fun l => ?_⟩
  rw [hremote]
  by_cases hone : l = ⟨0, 1⟩
  · rw [hone, Function.update_self]
  · rw [Function.update_of_ne hone]
    by_cases hzero : l = ⟨0, 0⟩
    · rw [hzero, Function.update_self]
    · rw [Function.update_of_ne hzero, Function.update_of_ne hzero, Function.update_of_ne hone]

/-- One worker, and a memory node with three locks: `chunk_size` is no multiple of 8. -/
def thirds (t : Thread) : Config where
  mnNR := 1
  lockNR := 3
  dsmSize := 1
  maxHandover := 16
  handover := false
  handoverData := false
  batched := false
  workers := {t}

def oneAcquisition (t : Thread) : List Action :=
  [.acquire t 1, .run t, .run t, .run t, .run t, .run t, .run t, .run t, .land ⟨0, 1⟩, .run t]

/-- The bytes that are not 0 are the fourth ones of the words that are added up. -/
theorem datasum_thirds {t : Thread} {s : State} {words : Nat → Nat} (hone : ∀ k, words k ≤ 1)
    (hmem : s.mem = writePage (fun _ _ => 0) ((thirds t).baseAddr ⟨0, 1⟩) words) (n : Nat) :
    256 ∣ datasum (thirds t) s n := by
  refine Finset.dvd_sum fun i _ => ?_
  have hbyte : s.mem n (8 * i) = 0 := by
    have hoff : ((thirds t).baseAddr ⟨0, 1⟩).offset = 357913941 := by
      simp [thirds, Config.baseAddr, Config.chunkSize]
    rw [hmem, writePage]
    split
    · rename_i hin
      rw [hoff] at hin ⊢
      have hat : (8 * i - 357913941) % 8 = 3 := by omega
      have := hone ((8 * i - 357913941) / 8)
      rw [hat, byte]
      omega
    · rfl
  rw [word_eq, Nat.add_zero, hbyte, Nat.zero_add]
  exact Nat.dvd_mul_right ..

/-- One worker adds one to one page, and the words that are added up make another sum. -/
theorem conserved_thirds : ∃ s,
    (machine (thirds ⟨0, 0, by decide⟩)).ReachableBy (Copied (thirds ⟨0, 0, by decide⟩)) s ∧
    (∀ l, s.lock.remote l = 0) ∧ Few s ∧ ¬ Conserved (thirds ⟨0, 0, by decide⟩) s := by
  have hrun : ∃ s, (machine (thirds ⟨0, 0, by decide⟩)).exec State.init
      (oneAcquisition ⟨0, 0, by decide⟩) = some s ∧
      s.lock.remote = Function.update (Function.update (fun _ => 0) ⟨0, 1⟩ 1) ⟨0, 1⟩ 0 ∧
      s.inc ⟨0, 0, by decide⟩ = 128 ∧
      s.mem = writePage (fun _ _ => 0) ((thirds ⟨0, 0, by decide⟩).baseAddr ⟨0, 1⟩)
        (countUp (readPage (fun _ _ => 0) ((thirds ⟨0, 0, by decide⟩).baseAddr ⟨0, 1⟩))) :=
    ⟨_, rfl, rfl, rfl, rfl⟩
  obtain ⟨s, hs, hremote, hinc, hmem⟩ := hrun
  refine ⟨s, reachableBy_of_exec rfl hs, fun l => ?_, few_of_exec hs (by decide), ?_⟩
  · rw [hremote]
    exact update_back 1 l
  · intro hcons
    have hone : ∀ k, countUp (readPage (fun _ _ => 0)
        ((thirds ⟨0, 0, by decide⟩).baseAddr ⟨0, 1⟩)) k ≤ 1 := by
      intro k
      have hzero : readPage (fun _ _ => 0) ((thirds ⟨0, 0, by decide⟩).baseAddr ⟨0, 1⟩) k = 0 := by
        rw [readPage, word_eq]
      rw [countUp, hzero]
      split <;> decide
    obtain ⟨c, hc⟩ := datasum_thirds hone hmem 0
    have hsums := hcons.sums
    rw [show (thirds ⟨0, 0, by decide⟩).mnNR = 1 from rfl, Finset.sum_range_one, hc,
      show (thirds ⟨0, 0, by decide⟩).workers = {⟨0, 0, by decide⟩} from rfl,
      Finset.sum_singleton, hinc] at hsums
    omega

end Dal.Bench
