/-
Where the words of a benchmark page are.

The words of a page that count are always in one place: in memory, or in the buffer of
one worker.  `loc` says in which, for each lock, and no step reads it.  A worker that has
read the page has them; so does one that has left them in a record with the lock, until
the receiver copies them; a write of the page, or the landing of a posted one, puts them
back into memory.  `AtLock` ties `loc` to the lock, and a step of a worker touches it at
one lock only, so that for all the others the invariant is a frame lemma.

What the lock has to give for this is mutual exclusion, in the form of `Sole`.
-/
import Dal.Bench.Worker

namespace Dal.Bench

open Handover (Thread Owns)
open Bytes

/-- The worker has the words of the page in its buffer. -/
def Phase.busy : Phase → Bool
  | .loaded | .changed | .unlocking => true
  | .out | .entered | .written => false

/-- Which phases go with which program counters of the lock. -/
def Fits (cfg : Config) : Phase → Handover.Pc → Prop
  | .out, .idle | .out, .spin .. | .out, .cas .. | .out, .failed _ => True
  | .entered, .holding .. | .loaded, .holding .. | .changed, .holding .. => True
  | .unlocking, .handing .. | .unlocking, .releasing .. => True
  | .written, .handing .. => cfg.handoverData = false
  | .written, .releasing .. => True
  | .written, .posted _ _ sync => sync = true
  | _, _ => False

/-- Where the words of lock `l` are: in memory (`none`), or in a worker's buffer. -/
structure AtLock (cfg : Config) (s : State) (loc : LockAddr → Option Thread) (l : LockAddr) :
    Prop where
  mine : ∀ t, (s.lock.pc t).critical = some l → (s.phase t).busy = true → loc l = some t
  written : ∀ t, (s.lock.pc t).critical = some l → s.phase t = .written → loc l = none
  remote : ∀ t k, s.lock.pc t = .holding l k false → s.phase t = .entered → loc l = none
  handed : ∀ n, (s.lock.locals n l).handOver = true →
    (∀ t, t.node = n → (s.lock.pc t).critical = some l → s.phase t = .entered) →
    if cfg.handoverData then
      ∃ u, s.record n l = ⟨some u, cfg.baseAddr l⟩ ∧ u.node = n ∧ loc l = some u
    else loc l = none
  free : (∀ n, ¬ Owns s.lock n l) → s.batch l = none → loc l = none
  batched : ∀ t, s.batch l = some t → loc l = some t ∧ l ∈ s.lock.zeros ∧
    s.phase t = .written ∧ ∃ k, s.lock.pc t = .posted l k true
  source : ∀ t, loc l = some t →
    (s.lock.pc t).critical = some l ∧ (s.phase t).busy = true ∨ s.batch l = some t ∨
      cfg.handoverData = true ∧ Pending s t l
  recorded : ∀ t k, s.lock.pc t = .handing l k → cfg.handoverData = true →
    s.record t.node l = ⟨some t, cfg.baseAddr l⟩

/-- The words that count. -/
def content (cfg : Config) (s : State) (loc : LockAddr → Option Thread) (l : LockAddr) :
    Nat → Nat :=
  match loc l with
  | none => readPage s.mem (cfg.baseAddr l)
  | some t => s.buf t

/-- The byte is one of the page of `l`. -/
def InPage (cfg : Config) (l : LockAddr) (n x : Nat) : Prop :=
  l.nodeID = n ∧ (cfg.baseAddr l).offset ≤ x ∧ x < (cfg.baseAddr l).offset + pageSize

/-- The locks the workers can draw. -/
def Config.locks (cfg : Config) : Finset LockAddr :=
  (Finset.range cfg.mnNR ×ˢ Finset.range cfg.lockNR).map
    ⟨fun p => ⟨p.1, p.2⟩, fun _ _ h => Prod.ext (congrArg LockAddr.nodeID h)
      (congrArg LockAddr.index h)⟩

structure Inv (cfg : Config) (s : State) (loc : LockAddr → Option Thread) : Prop where
  atLock : ∀ l, AtLock cfg s loc l
  fits : ∀ t, Fits cfg (s.phase t) (s.lock.pc t)
  drawn : ∀ t l k, (s.lock.pc t).queued = some (l, k) → cfg.Valid l ∧ t ∈ cfg.workers
  /-- A buffer holds the words of one lock at most. -/
  inj : ∀ l l' t, loc l = some t → loc l' = some t → l = l'
  full : ∀ l, cfg.Valid l → ∀ k < dataLen, content cfg s loc l k = s.lockAcqs l % 2 ^ 64
  outside : ∀ n x, (∀ l, cfg.Valid l → ¬ InPage cfg l n x) → s.mem n x = 0
  counted : ∑ t ∈ cfg.workers, s.inc t = dataLen * ∑ l ∈ cfg.locks, s.lockAcqs l

/-! ### What the lock gives -/

section Lock

variable {s : Handover.State} {t u : Thread} {l : LockAddr}

theorem queued_of_critical {p : Handover.Pc} (h : p.critical = some l) :
    ∃ k, p.queued = some (l, k) := by
  obtain ⟨k, hk⟩ := Handover.admitted_of_critical h
  exact ⟨k, Handover.queued_of_admitted hk⟩

/-- The thread is alone with the lock. -/
structure Sole (s : Handover.State) (t : Thread) (l : LockAddr) : Prop where
  critical : (s.pc t).critical = some l
  only : ∀ u, (s.pc u).critical = some l → u = t
  flag : ∀ n, (s.locals n l).handOver = true → n = t.node
  zero : l ∉ s.zeros

theorem sole (h : Handover.Inv s) (ht : (s.pc t).critical = some l) : Sole s t l := by
  have howns : Owns s t.node l := Or.inr ⟨t, rfl, ht⟩
  obtain ⟨-, htag, hzero⟩ := h.owned _ _ howns
  refine ⟨ht, fun u hu => ?_, fun n hn => ?_, hzero⟩
  · have hnode := (h.owned u.node l (Or.inr ⟨u, rfl, hu⟩)).2.1.symm.trans htag
    obtain ⟨k, hk⟩ := Handover.admitted_of_critical ht
    obtain ⟨k', hk'⟩ := Handover.admitted_of_critical hu
    exact h.admitted_unique hk' hk hnode
  · exact (h.owned n l (Or.inl hn)).2.1.symm.trans htag

end Lock

/-! ### The locks a step does not touch -/

section Frame

variable {cfg : Config} {s s' : State} {loc loc' : LockAddr → Option Thread} {l l' : LockAddr}

/-- Nothing of the step concerns any lock but `l`. -/
structure Near (s s' : State) (l : LockAddr) : Prop where
  moved : ∀ u, s'.lock.pc u = s.lock.pc u ∧ s'.phase u = s.phase u ∨
    (∀ l' k, (s.lock.pc u).queued = some (l', k) → l' = l) ∧
      ∀ l' k, (s'.lock.pc u).queued = some (l', k) → l' = l
  flags : ∀ n l', l' ≠ l → (s'.lock.locals n l').handOver = (s.lock.locals n l').handOver
  zeros : ∀ l', l' ≠ l → l' ∈ s.lock.zeros → l' ∈ s'.lock.zeros
  batch : ∀ l', l' ≠ l → s'.batch l' = s.batch l'
  record : ∀ n l', l' ≠ l → s'.record n l' = s.record n l'

/-- Who has to do with another lock has not moved. -/
theorem Near.same (h : Near s s' l) (hne : l' ≠ l) {u : Thread} {k : Nat}
    (hu : (s.lock.pc u).queued = some (l', k) ∨ (s'.lock.pc u).queued = some (l', k)) :
    s'.lock.pc u = s.lock.pc u ∧ s'.phase u = s.phase u := by
  rcases h.moved u with hsame | ⟨hold, hnew⟩
  · exact hsame
  · exact absurd (hu.elim (hold l' k) (hnew l' k)) hne

theorem Near.same_critical (h : Near s s' l) (hne : l' ≠ l) {u : Thread}
    (hu : (s.lock.pc u).critical = some l' ∨ (s'.lock.pc u).critical = some l') :
    s'.lock.pc u = s.lock.pc u ∧ s'.phase u = s.phase u := by
  rcases hu with hu | hu
  · obtain ⟨k, hk⟩ := queued_of_critical hu
    exact h.same hne (Or.inl hk)
  · obtain ⟨k, hk⟩ := queued_of_critical hu
    exact h.same hne (Or.inr hk)

theorem Near.entered (h : Near s s' l) (hne : l' ≠ l) {n : Nat}
    (hall : ∀ t, t.node = n → (s'.lock.pc t).critical = some l' → s'.phase t = .entered) :
    ∀ t, t.node = n → (s.lock.pc t).critical = some l' → s.phase t = .entered := by
  intro t ht hcrit
  obtain ⟨hpc, hphase⟩ := h.same_critical hne (Or.inl hcrit)
  rw [← hphase]
  exact hall t ht (hpc ▸ hcrit)

theorem Near.pending (h : Near s s' l) (hne : l' ≠ l) {t : Thread} (hp : Pending s t l') :
    Pending s' t l' := by
  refine ⟨(h.flags _ _ hne).trans hp.1, (h.record _ _ hne) ▸ hp.2.1, fun u hu hcrit => ?_⟩
  obtain ⟨hpc, hphase⟩ := h.same_critical hne (Or.inr hcrit)
  rw [hphase]
  exact hp.2.2 u hu (hpc ▸ hcrit)

/-- **What holds at a lock holds after a step that does not concern it.** -/
theorem AtLock.frame (h : AtLock cfg s loc l') (near : Near s s' l) (hne : l' ≠ l)
    (hloc : loc' l' = loc l') : AtLock cfg s' loc' l' where
  mine t hcrit hbusy := by
    obtain ⟨hpc, hphase⟩ := near.same_critical hne (Or.inr hcrit)
    rw [hloc]
    exact h.mine t (hpc ▸ hcrit) (hphase ▸ hbusy)
  written t hcrit hwritten := by
    obtain ⟨hpc, hphase⟩ := near.same_critical hne (Or.inr hcrit)
    rw [hloc]
    exact h.written t (hpc ▸ hcrit) (hphase ▸ hwritten)
  remote t k hpc' hentered := by
    obtain ⟨hpc, hphase⟩ := near.same (k := k) hne (Or.inr (by rw [hpc']; rfl))
    rw [hloc]
    exact h.remote t k (hpc ▸ hpc') (hphase ▸ hentered)
  handed n hflag hall := by
    have hpassed := h.handed n ((near.flags n l' hne) ▸ hflag) (near.entered hne hall)
    rwa [hloc, near.record n l' hne]
  free hno hbatch := by
    rw [hloc]
    refine h.free (fun n hn => hno n ?_) ((near.batch l' hne) ▸ hbatch)
    rcases hn with hflag | ⟨t, ht, hcrit⟩
    · exact Or.inl ((near.flags n l' hne).trans hflag)
    · obtain ⟨hpc, -⟩ := near.same_critical hne (Or.inl hcrit)
      exact Or.inr ⟨t, ht, hpc ▸ hcrit⟩
  batched t hbatch := by
    obtain ⟨hat, hzero, hwritten, k, hpc'⟩ := h.batched t ((near.batch l' hne) ▸ hbatch)
    obtain ⟨hpc, hphase⟩ := near.same (k := k) hne (Or.inl (by rw [hpc']; rfl))
    exact ⟨hloc.trans hat, near.zeros l' hne hzero, hphase.trans hwritten, k, hpc.trans hpc'⟩
  source t hat := by
    rcases h.source t (hloc ▸ hat) with ⟨hcrit, hbusy⟩ | hbatch | ⟨hdata, hpending⟩
    · obtain ⟨hpc, hphase⟩ := near.same_critical hne (Or.inl hcrit)
      exact Or.inl ⟨hpc ▸ hcrit, hphase ▸ hbusy⟩
    · exact Or.inr (Or.inl ((near.batch l' hne).trans hbatch))
    · exact Or.inr (Or.inr ⟨hdata, near.pending hne hpending⟩)
  recorded t k hpc' hdata := by
    obtain ⟨hpc, -⟩ := near.same (k := k) hne (Or.inr (by rw [hpc']; rfl))
    rw [near.record t.node l' hne]
    exact h.recorded t k (hpc ▸ hpc') hdata

/-! ### The lock a step is about -/

/-- A worker is alone with the lock, and past the read. -/
theorem AtLock.held {t : Thread} (hsole : Sole s.lock t l) (hbatch : s.batch l = none)
    (hentered : s.phase t ≠ .entered) (hloc : loc l = if (s.phase t).busy then some t else none)
    (hrecorded : ∀ k, s.lock.pc t = .handing l k → cfg.handoverData = true →
      s.record t.node l = ⟨some t, cfg.baseAddr l⟩) : AtLock cfg s loc l where
  mine u hcrit hbusy := by
    obtain rfl := hsole.only u hcrit
    rw [hloc, if_pos hbusy]
  written u hcrit hwritten := by
    obtain rfl := hsole.only u hcrit
    rw [hloc, hwritten]
    rfl
  remote u k hpc hu := by
    obtain rfl := hsole.only u (by rw [hpc]; rfl)
    exact absurd hu hentered
  handed n hflag hall := by
    obtain rfl := hsole.flag n hflag
    exact absurd (hall t rfl hsole.critical) hentered
  free hno _ := absurd (Or.inr ⟨t, rfl, hsole.critical⟩) (hno t.node)
  batched u hu := by
    rw [hbatch] at hu
    cases hu
  source u hu := by
    rw [hloc] at hu
    split at hu
    · rename_i hbusy
      obtain rfl := Option.some.inj hu
      exact Or.inl ⟨hsole.critical, hbusy⟩
    · cases hu
  recorded u k hpc hdata := by
    obtain rfl := hsole.only u (by rw [hpc]; rfl)
    exact hrecorded k hpc hdata

/-- Nobody owns the lock: the words are in memory, but for a batch that was posted. -/
theorem AtLock.unowned (hno : ∀ n, ¬ Owns s.lock n l)
    (hwhere : s.batch l = none ∧ loc l = none ∨ ∃ t, s.batch l = some t ∧ loc l = some t ∧
      l ∈ s.lock.zeros ∧ s.phase t = .written ∧ ∃ k, s.lock.pc t = .posted l k true) :
    AtLock cfg s loc l := by
  have hcrit : ∀ t, (s.lock.pc t).critical ≠ some l := fun t ht => hno t.node (Or.inr ⟨t, rfl, ht⟩)
  have hflag : ∀ n, (s.lock.locals n l).handOver ≠ true := fun n hn => hno n (Or.inl hn)
  refine ⟨fun t ht => absurd ht (hcrit t), fun t ht => absurd ht (hcrit t), ?_,
    fun n hn => absurd hn (hflag n), fun _ hbatch => ?_, fun t hbatch => ?_, fun t hloc => ?_, ?_⟩
  · intro t k hpc
    exact absurd (by rw [hpc]; rfl) (hcrit t)
  · rcases hwhere with ⟨-, hloc⟩ | ⟨t, ht, -⟩
    · exact hloc
    · rw [hbatch] at ht
      cases ht
  · rcases hwhere with ⟨hnone, -⟩ | ⟨u, hu, hrest⟩
    · rw [hbatch] at hnone
      cases hnone
    · rw [hbatch] at hu
      obtain rfl := Option.some.inj hu
      exact hrest
  · rcases hwhere with ⟨-, hnone⟩ | ⟨u, hu, hat, -⟩
    · rw [hloc] at hnone
      cases hnone
    · rw [hloc] at hat
      obtain rfl := Option.some.inj hat
      exact Or.inr (Or.inl hu)
  · intro t k hpc
    exact absurd (by rw [hpc]; rfl) (hcrit t)

/-- The lock is free and handed over. -/
theorem AtLock.passed {t : Thread} (hflag : (s.lock.locals t.node l).handOver = true)
    (honly : ∀ n, (s.lock.locals n l).handOver = true → n = t.node)
    (hcrit : ∀ u, (s.lock.pc u).critical ≠ some l) (hbatch : s.batch l = none)
    (hloc : if cfg.handoverData then s.record t.node l = ⟨some t, cfg.baseAddr l⟩ ∧ loc l = some t
      else loc l = none) : AtLock cfg s loc l where
  mine u hu := absurd hu (hcrit u)
  written u hu := absurd hu (hcrit u)
  remote u k hpc := absurd (by rw [hpc]; rfl) (hcrit u)
  handed n hn _ := by
    obtain rfl := honly n hn
    split
    · rename_i hdata
      rw [if_pos hdata] at hloc
      exact ⟨t, hloc.1, rfl, hloc.2⟩
    · rename_i hdata
      rwa [if_neg hdata] at hloc
  free hno := absurd (Or.inl hflag) (hno t.node)
  batched u hu := by
    rw [hbatch] at hu
    cases hu
  source u hu := by
    cases hdata : cfg.handoverData with
    | false =>
        rw [hdata, if_neg Bool.false_ne_true, hu] at hloc
        cases hloc
    | true =>
        rw [hdata, if_pos rfl, hu] at hloc
        obtain rfl := Option.some.inj hloc.2
        refine Or.inr (Or.inr ⟨rfl, hflag, by rw [hloc.1], fun v _ hv => absurd hv (hcrit v)⟩)
  recorded u k hpc := absurd (by rw [hpc]; rfl) (hcrit u)

/-- A step that changes nothing but where threads are that have nothing to do with pages. -/
structure Still (s s' : State) : Prop where
  moved : ∀ u, s'.lock.pc u = s.lock.pc u ∧ s'.phase u = s.phase u ∨
    (s.lock.pc u).critical = none ∧ (s'.lock.pc u).critical = none ∧ ∀ l, s.batch l ≠ some u
  flags : ∀ n l, (s'.lock.locals n l).handOver = (s.lock.locals n l).handOver
  zeros : ∀ l, s.batch l ≠ none → l ∈ s.lock.zeros → l ∈ s'.lock.zeros
  rest : s'.batch = s.batch ∧ s'.record = s.record

theorem Still.same (h : Still s s') {u : Thread}
    (hu : (s.lock.pc u).critical = some l ∨ (s'.lock.pc u).critical = some l) :
    s'.lock.pc u = s.lock.pc u ∧ s'.phase u = s.phase u := by
  rcases h.moved u with hsame | ⟨hold, hnew, -⟩
  · exact hsame
  · rw [hold, hnew] at hu
    rcases hu with hu | hu <;> cases hu

theorem AtLock.still (h : AtLock cfg s loc l) (hs : Still s s') : AtLock cfg s' loc l where
  mine u hcrit hbusy := by
    obtain ⟨hpc, hphase⟩ := hs.same (Or.inr hcrit)
    exact h.mine u (hpc ▸ hcrit) (hphase ▸ hbusy)
  written u hcrit hwritten := by
    obtain ⟨hpc, hphase⟩ := hs.same (Or.inr hcrit)
    exact h.written u (hpc ▸ hcrit) (hphase ▸ hwritten)
  remote u k hpc' hentered := by
    obtain ⟨hpc, hphase⟩ := hs.same (l := l) (u := u) (Or.inr (by rw [hpc']; rfl))
    exact h.remote u k (hpc ▸ hpc') (hphase ▸ hentered)
  handed n hflag hall := by
    rw [hs.rest.2]
    refine h.handed n (hs.flags n l ▸ hflag) fun u hu hcrit => ?_
    obtain ⟨hpc, hphase⟩ := hs.same (Or.inl hcrit)
    rw [← hphase]
    exact hall u hu (hpc ▸ hcrit)
  free hno hbatch := by
    refine h.free (fun n hn => hno n ?_) (hs.rest.1 ▸ hbatch)
    rcases hn with hflag | ⟨u, hu, hcrit⟩
    · exact Or.inl ((hs.flags n l).trans hflag)
    · obtain ⟨hpc, -⟩ := hs.same (Or.inl hcrit)
      exact Or.inr ⟨u, hu, hpc ▸ hcrit⟩
  batched u hu := by
    rw [hs.rest.1] at hu
    obtain ⟨hat, hzero, hwritten, k, hpc'⟩ := h.batched u hu
    have hzero' := hs.zeros l (by rw [hu]; exact Option.some_ne_none u) hzero
    rcases hs.moved u with ⟨hpc, hphase⟩ | ⟨-, -, hnot⟩
    · exact ⟨hat, hzero', hphase.trans hwritten, k, hpc.trans hpc'⟩
    · exact absurd hu (hnot l)
  source u hat := by
    rcases h.source u hat with ⟨hcrit, hbusy⟩ | hbatch | ⟨hdata, hflag, hrecord, hall⟩
    · obtain ⟨hpc, hphase⟩ := hs.same (Or.inl hcrit)
      exact Or.inl ⟨hpc ▸ hcrit, hphase ▸ hbusy⟩
    · exact Or.inr (Or.inl (hs.rest.1 ▸ hbatch))
    · refine Or.inr (Or.inr ⟨hdata, (hs.flags _ _).trans hflag, hs.rest.2 ▸ hrecord, ?_⟩)
      intro v hv hcrit
      obtain ⟨hpc, hphase⟩ := hs.same (Or.inr hcrit)
      exact hphase.trans (hall v hv (hpc ▸ hcrit))
  recorded u k hpc' hdata := by
    obtain ⟨hpc, -⟩ := hs.same (l := l) (u := u) (Or.inr (by rw [hpc']; rfl))
    rw [hs.rest.2]
    exact h.recorded u k (hpc ▸ hpc') hdata

/-- A worker gets the lock, of which nobody else has a part. -/
theorem AtLock.enter {t : Thread} {k : Nat} {handover : Bool} (h : AtLock cfg s loc l)
    (hsole : Sole s'.lock t l) (hpc : s'.lock.pc t = .holding l k handover)
    (hentered : s'.phase t = .entered) (hout : (s.lock.pc t).critical = none)
    (hothers : ∀ u, u ≠ t → s'.lock.pc u = s.lock.pc u)
    (hflags : ∀ n, (s'.lock.locals n l).handOver = (s.lock.locals n l).handOver)
    (hzeros : s'.lock.zeros = s.lock.zeros) (hrest : s'.batch = s.batch ∧ s'.record = s.record)
    (hremote : handover = false → loc l = none) : AtLock cfg s' loc l := by
  have hnone : ∀ u, (s.lock.pc u).critical ≠ some l := by
    intro u hu
    have hne : u ≠ t := by
      rintro rfl
      rw [hout] at hu
      cases hu
    exact hne (hsole.only u ((hothers u hne).symm ▸ hu))
  have hbatch : ∀ u, s.batch l ≠ some u := by
    intro u hu
    exact hsole.zero (hzeros ▸ (h.batched u hu).2.1)
  constructor
  case mine =>
    intro u hcrit hbusy
    obtain rfl := hsole.only u hcrit
    rw [hentered] at hbusy
    cases hbusy
  case written =>
    intro u hcrit hwritten
    obtain rfl := hsole.only u hcrit
    rw [hentered] at hwritten
    cases hwritten
  case remote =>
    intro u k' hpc' _
    obtain rfl := hsole.only u (by rw [hpc']; rfl)
    rw [hpc] at hpc'
    cases hpc'
    exact hremote rfl
  case handed =>
    intro n hflag _
    rw [hrest.2]
    exact h.handed n (hflags n ▸ hflag) fun u _ hu => absurd hu (hnone u)
  case free =>
    intro hno
    exact absurd (Or.inr ⟨t, rfl, hsole.critical⟩) (hno t.node)
  case batched =>
    intro u hu
    exact absurd (hrest.1 ▸ hu) (hbatch u)
  case source =>
    intro u hat
    rcases h.source u hat with ⟨hcrit, -⟩ | hu | ⟨hdata, hflag, hrecord, -⟩
    · exact absurd hcrit (hnone u)
    · exact absurd hu (hbatch u)
    · refine Or.inr (Or.inr ⟨hdata, (hflags _).trans hflag, hrest.2 ▸ hrecord, fun v _ hv => ?_⟩)
      obtain rfl := hsole.only v hv
      exact hentered
  case recorded =>
    intro u k' hpc' _
    obtain rfl := hsole.only u (by rw [hpc']; rfl)
    rw [hpc] at hpc'
    cases hpc'

end Frame

end Dal.Bench
