/-
`DSM::alloc`: threads of all nodes cut regions off chunks they ask the directories for.

A call that finds no room sends `MALLOC` to the directory its thread would ask next
and waits in `rpc_wait` for the answer, so a thread has at most one request on its
way; the directories answer whichever request they take next.  `regions` lists what
the calls have returned and is read by no step.

The proof is about who owns a chunk.  A chunk a directory has handed out is on its
way to one thread or in the log of one thread, and nowhere else; every region lies in
a chunk of the thread it was returned to, and in the chunk in use it lies before `cur`.
-/
import Dal.Dsm.Allocator
import Dal.Lib.Transition
import Mathlib.Logic.Function.Basic
import Mathlib.Data.List.Nodup

namespace Dal.Alloc

def NR_DIRECTORY : Nat := 1

/-- The part of `DSMConfig` the allocators see, `dsmSize` in GB. -/
structure Conf where
  mnNR : Nat
  dsmSize : Nat
  /-- `hugePageAlloc` has mapped the memory, at an address that is not 0. -/
  mapped : dsmSize * GB < 2 ^ 48

def Conf.bytes (conf : Conf) : Nat := conf.dsmSize * GB

structure Thread where
  node : Nat
  id : Nat
  deriving DecidableEq, Repr

/-- Where a thread is in `alloc(size)`. -/
inductive Pc
  | idle
  /-- In `rpc_wait`, for an answer of a directory of a node. -/
  | waiting (size node dirId : Nat)
  | answered (size : Nat) (addr : GlobalAddress)
  deriving DecidableEq, Repr

/-- The `thread_local` variables of one thread. -/
structure Local where
  allocator : LocalAllocator
  nextTargetNode : Nat
  nextTargetDirId : Nat
  pc : Pc

structure State where
  /-- `chunckAlloc` of each directory of each node. -/
  directory : Nat → Nat → GlobalAllocator
  threads : Thread → Local
  regions : List (Thread × Region)

def State.init (conf : Conf) : State where
  directory := fun nodeID dirID =>
    let perDirectoryDsmSize := conf.bytes / NR_DIRECTORY
    GlobalAllocator.new ⟨nodeID, perDirectoryDsmSize * dirID⟩ perDirectoryDsmSize
  threads := fun t =>
    { allocator := .new
      nextTargetNode := (t.id + t.node) % conf.mnNR
      nextTargetDirId := (t.id + t.node) % NR_DIRECTORY
      pc := .idle }
  regions := []

inductive Action
  /-- An idle thread calls `alloc(size)`. -/
  | alloc (t : Thread) (size : Nat)
  /-- A directory processes the `MALLOC` of a thread. -/
  | serve (t : Thread)
  /-- `rpc_wait` returns. -/
  | receive (t : Thread)

/-- The sizes a region may have. -/
def Action.sized : Action → Prop
  | .alloc _ size => 0 < size ∧ size ≤ kChunkSize
  | .serve _ | .receive _ => True

def State.setThread (s : State) (t : Thread) (x : Local) : State :=
  { s with threads := Function.update s.threads t x }

/-- `alloc` returns `addr`. -/
def State.finish (s : State) (t : Thread) (x : Local) (addr : GlobalAddress) (size : Nat) : State :=
  { s.setThread t { x with pc := .idle } with regions := (t, ⟨addr, size⟩) :: s.regions }

/-- `alloc` up to the request, if it needs one. -/
def alloc (s : State) (t : Thread) (size : Nat) : State :=
  let x := s.threads t
  match x.allocator.malloc size with
  | (_, true, l) =>
      s.setThread t
        { x with allocator := l, pc := .waiting size (x.nextTargetNode % 2 ^ 16) x.nextTargetDirId }
  | (addr, false, l) => s.finish t { x with allocator := l } addr size

/-- `process_message` for `MALLOC`. -/
def serve (conf : Conf) (s : State) (t : Thread) (size node dirId : Nat) : Option State :=
  if node < conf.mnNR ∧ dirId < NR_DIRECTORY then
    (s.directory node dirId).allocChunck.map fun (addr, g) =>
      { s.setThread t { s.threads t with pc := .answered size addr } with
        directory := fun n d => if n = node ∧ d = dirId then g else s.directory n d }
  else none

/-- Where the next request goes after an answer. -/
def Local.nextTarget (conf : Conf) (x : Local) : Local :=
  if x.nextTargetDirId + 1 = NR_DIRECTORY then
    { x with nextTargetNode := (x.nextTargetNode + 1) % conf.mnNR, nextTargetDirId := 0 }
  else { x with nextTargetDirId := x.nextTargetDirId + 1 }

/-- `alloc` from the answer on, with its second `malloc`. -/
def receive (conf : Conf) (s : State) (t : Thread) (size : Nat) (addr : GlobalAddress) : State :=
  let x := (s.threads t).nextTarget conf
  match (x.allocator.setChunck addr).malloc size with
  | (res, _, l) => s.finish t { x with allocator := l } res size

def step (conf : Conf) (s : State) : Action → Option State
  | .alloc t size =>
      match (s.threads t).pc with
      | .idle => some (alloc s t size)
      | _ => none
  | .serve t =>
      match (s.threads t).pc with
      | .waiting size node dirId => serve conf s t size node dirId
      | _ => none
  | .receive t =>
      match (s.threads t).pc with
      | .answered size addr => some (receive conf s t size addr)
      | _ => none

/-- Any number of threads on any number of nodes, any interleaving. -/
def machine (conf : Conf) : System State Action where
  Init := (· = State.init conf)
  step := step conf

/-! ### Who owns a chunk -/

/-- The chunk that is on its way to a thread. -/
def Pc.inFlight : Pc → List GlobalAddress
  | .answered _ addr => [addr]
  | .idle | .waiting .. => []

def Local.chunks (x : Local) : List GlobalAddress := x.allocator.logHeads ++ x.pc.inFlight

/-- What a call still has to allocate. -/
def Pc.size : Pc → Nat
  | .idle => 0
  | .waiting size _ _ | .answered size _ => size

/-- A region of a thread with this allocator. -/
def Placed (l : LocalAllocator) (r : Region) : Prop :=
  ∃ h ∈ l.logHeads, r.Within ⟨h, kChunkSize⟩ ∧
    (h = l.head → r.addr.offset + r.size ≤ l.cur.offset)

/-- `h` is a chunk some directory has handed out. -/
def Issued (conf : Conf) (s : State) (h : GlobalAddress) : Prop :=
  ∃ i, h = (chunk h.nodeID i).addr ∧ 0 < i ∧ i < (s.directory h.nodeID 0).bitmapTail ∧
    h.nodeID < conf.mnNR ∧ (i + 1) * kChunkSize ≤ conf.bytes

structure Inv (conf : Conf) (s : State) : Prop where
  directory : ∀ n, (s.directory n 0).Ok n conf.bytes
  allocator : ∀ t, (s.threads t).allocator.Ok
  sized : ∀ t, (s.threads t).pc.size ≤ kChunkSize
  issued : ∀ t, ∀ h ∈ (s.threads t).chunks, Issued conf s h
  once : ∀ t, (s.threads t).chunks.Nodup
  owner : ∀ t u h, h ∈ (s.threads t).chunks → h ∈ (s.threads u).chunks → t = u
  placed : ∀ p ∈ s.regions, Placed (s.threads p.1).allocator p.2
  apart : s.regions.Pairwise fun p q => Disjoint p.2.bytes q.2.bytes

theorem inv_init (conf : Conf) : Inv conf (State.init conf) where
  directory n := by
    have h := GlobalAllocator.ok_new n conf.bytes
    simpa [State.init, NR_DIRECTORY] using h
  allocator _ := LocalAllocator.ok_new
  sized _ := Nat.zero_le _
  issued _ h hh := absurd hh List.not_mem_nil
  once _ := List.nodup_nil
  owner _ _ h hh := absurd hh List.not_mem_nil
  placed _ hp := absurd hp List.not_mem_nil
  apart := List.Pairwise.nil

section

variable {conf : Conf} {s : State} {t : Thread}

/-- Two chunks handed out are the same or share no byte. -/
theorem Issued.disjoint {h h' : GlobalAddress} (hi : Issued conf s h) (hi' : Issued conf s h')
    (hne : h ≠ h') : Disjoint (Region.mk h kChunkSize).bytes (Region.mk h' kChunkSize).bytes := by
  obtain ⟨i, heq, -⟩ := hi
  obtain ⟨j, heq', -⟩ := hi'
  rw [heq, heq']
  refine Region.chunk_disjoint ?_
  by_cases hnode : h.nodeID = h'.nodeID
  · refine Or.inr fun hij => hne ?_
    rw [heq, heq', hnode, hij]
  · exact Or.inl hnode

/-- What a directory has handed out stays handed out. -/
theorem Issued.mono {s' : State} {h : GlobalAddress} (hi : Issued conf s h)
    (hle : (s.directory h.nodeID 0).bitmapTail ≤ (s'.directory h.nodeID 0).bitmapTail) :
    Issued conf s' h := by
  obtain ⟨i, heq, hpos, hlt, hrest⟩ := hi
  exact ⟨i, heq, hpos, hlt.trans_le hle, hrest⟩

/-- A thread that owns the same chunks, and keeps its regions clear of `cur`. -/
theorem Inv.setThread (inv : Inv conf s) {x : Local} (hok : x.allocator.Ok)
    (hsized : x.pc.size ≤ kChunkSize) (hchunks : x.chunks = (s.threads t).chunks)
    (hplaced : ∀ r, Placed (s.threads t).allocator r → Placed x.allocator r) :
    Inv conf (s.setThread t x) := by
  have hsame : ∀ u, ((s.setThread t x).threads u).chunks = (s.threads u).chunks := by
    intro u
    by_cases hu : u = t
    · subst hu
      simpa [State.setThread] using hchunks
    · simp [State.setThread, hu]
  refine ⟨inv.directory, ?_, ?_, ?_, ?_, ?_, ?_, inv.apart⟩
  · intro u
    by_cases hu : u = t
    · subst hu
      simpa [State.setThread] using hok
    · simpa [State.setThread, hu] using inv.allocator u
  · intro u
    by_cases hu : u = t
    · subst hu
      simpa [State.setThread] using hsized
    · simpa [State.setThread, hu] using inv.sized u
  · intro u h hh
    rw [hsame u] at hh
    exact inv.issued u h hh
  · intro u
    rw [hsame u]
    exact inv.once u
  · intro u v h hu hv
    rw [hsame u] at hu
    rw [hsame v] at hv
    exact inv.owner u v h hu hv
  · intro p hp
    have hold := inv.placed p hp
    by_cases hu : p.1 = t
    · rw [hu] at hold
      simpa [State.setThread, hu] using hplaced p.2 hold
    · simpa [State.setThread, hu] using hold

/-! ### The steps -/

/-- The allocator after the next `size` bytes of its chunk are taken. -/
theorem ok_advance {l : LocalAllocator} (hok : l.Ok) {size : Nat}
    (hroom : l.cur.offset + size ≤ l.head.offset + kChunkSize)
    (hlt : l.head.offset + kChunkSize < 2 ^ 48) :
    (l.cur.advance size).offset = l.cur.offset + size ∧
      LocalAllocator.Ok { l with cur := l.cur.advance size } := by
  have hoff : (l.cur.advance size).offset = l.cur.offset + size := Nat.mod_eq_of_lt (by omega)
  have hle := hok.le
  refine ⟨hoff, hok.head_mem, hok.node, ?_, ?_⟩
  · show l.head.offset ≤ (l.cur.advance size).offset
    omega
  · show (l.cur.advance size).offset ≤ l.head.offset + kChunkSize
    omega

/-- A region is cut off the chunk in use. -/
theorem Inv.take (inv : Inv conf s) (size : Nat) (hidle : (s.threads t).pc.inFlight = [])
    (hlog : (s.threads t).allocator.logHeads ≠ [])
    (hroom : (s.threads t).allocator.cur.offset + size ≤
      (s.threads t).allocator.head.offset + kChunkSize) :
    Inv conf (s.finish t
      { s.threads t with
        allocator := { (s.threads t).allocator with
          cur := (s.threads t).allocator.cur.advance size } }
      (s.threads t).allocator.cur size) := by
  have hok := inv.allocator t
  have hhead := hok.head_mem hlog
  have hmem : (s.threads t).allocator.head ∈ (s.threads t).chunks :=
    List.mem_append_left _ hhead
  obtain ⟨i, heq, hpos, -, -, hfits⟩ := inv.issued t _ hmem
  have hlt : (s.threads t).allocator.head.offset + kChunkSize < 2 ^ 48 := by
    have hoff : (s.threads t).allocator.head.offset = i * kChunkSize := congrArg (·.offset) heq
    have hmapped : conf.bytes < 2 ^ 48 := conf.mapped
    rw [Nat.succ_mul] at hfits
    omega
  obtain ⟨hadv, hok'⟩ := ok_advance hok hroom hlt
  have inv' : Inv conf (s.setThread t
      { s.threads t with
        allocator := { (s.threads t).allocator with
          cur := (s.threads t).allocator.cur.advance size }
        pc := .idle }) := by
    refine inv.setThread hok' (Nat.zero_le _) ?_ ?_
    · simp only [Local.chunks, hidle]
      rfl
    · intro r ⟨h, hh, hwithin, hbefore⟩
      refine ⟨h, hh, hwithin, fun hcur => ?_⟩
      have := hbefore hcur
      show r.addr.offset + r.size ≤ ((s.threads t).allocator.cur.advance size).offset
      omega
  refine ⟨inv'.directory, inv'.allocator, inv'.sized, inv'.issued, inv'.once, inv'.owner, ?_, ?_⟩
  · intro p hp
    rcases List.mem_cons.mp hp with rfl | hold
    · refine ⟨(s.threads t).allocator.head, ?_, ⟨hok.node, hok.le, hroom⟩, fun _ => ?_⟩
      · simpa [State.finish, State.setThread] using hhead
      · simpa [State.finish, State.setThread] using hadv.ge
    · exact inv'.placed p hold
  · refine List.pairwise_cons.mpr ⟨fun p hp => ?_, inv.apart⟩
    obtain ⟨h, hh, hwithin, hbefore⟩ := inv.placed p hp
    by_cases hsame : h = (s.threads t).allocator.head
    · have hchunk : h ∈ (s.threads p.1).chunks := List.mem_append_left _ hh
      have howner : p.1 = t := inv.owner _ _ _ hchunk (hsame ▸ hmem)
      rw [howner] at hbefore
      exact (Region.disjoint_of_le (hbefore hsame)).symm
    · have hissued := inv.issued p.1 h (List.mem_append_left _ hh)
      have hnew : Region.Within ⟨(s.threads t).allocator.cur, size⟩
          ⟨(s.threads t).allocator.head, kChunkSize⟩ := ⟨hok.node, hok.le, hroom⟩
      exact hnew.disjoint hwithin ((inv.issued t _ hmem).disjoint hissued (Ne.symm hsame))

theorem Inv.alloc (inv : Inv conf s) (hpc : (s.threads t).pc = .idle) {size : Nat}
    (hsize : size ≤ kChunkSize) : Inv conf (alloc s t size) := by
  rcases (s.threads t).allocator.malloc_cases size with hask | ⟨hlog, hroom, htake⟩
  · simp only [Alloc.alloc, hask]
    refine inv.setThread (inv.allocator t) hsize ?_ fun r hr => hr
    simp [Local.chunks, Pc.inFlight, hpc]
  · simp only [Alloc.alloc, htake]
    exact inv.take size (by simp [hpc, Pc.inFlight]) hlog hroom

/-- A directory hands out a chunk nobody owns. -/
theorem Inv.serve {s' : State} (inv : Inv conf s) {size node dirId : Nat}
    (hpc : (s.threads t).pc = .waiting size node dirId)
    (h : serve conf s t size node dirId = some s') : Inv conf s' := by
  unfold Alloc.serve at h
  split at h
  · rename_i hexists
    obtain ⟨hnode, hdir⟩ := hexists
    obtain rfl : dirId = 0 := Nat.lt_one_iff.mp hdir
    simp only [Option.map_eq_some_iff, Prod.exists] at h
    obtain ⟨addr, g, halloc, rfl⟩ := h
    obtain ⟨haddr, hfits, htail, hok⟩ := (inv.directory node).allocChunck conf.mapped halloc
    have hlog : ∀ u, ((s.setThread t { s.threads t with pc := .answered size addr }).threads
        u).allocator = (s.threads u).allocator := by
      intro u
      by_cases hu : u = t
      · subst hu
        simp [State.setThread]
      · simp [State.setThread, hu]
    have hmine : ((s.setThread t { s.threads t with pc := .answered size addr }).threads
        t).chunks = (s.threads t).chunks ++ [addr] := by
      simp [State.setThread, Local.chunks, Pc.inFlight, hpc]
    have hother : ∀ u, u ≠ t → ((s.setThread t
        { s.threads t with pc := .answered size addr }).threads u).chunks = (s.threads u).chunks := by
      intro u hu
      simp [State.setThread, hu]
    have hfresh : ∀ u, addr ∉ (s.threads u).chunks := by
      intro u hu
      obtain ⟨i, heq, -, hlt, -⟩ := inv.issued u addr hu
      subst haddr
      have hoff : (s.directory node 0).bitmapTail * kChunkSize = i * kChunkSize :=
        congrArg (·.offset) heq
      have := Nat.eq_of_mul_eq_mul_right (by decide) hoff
      exact absurd this (Nat.ne_of_gt hlt)
    -- A chunk of some thread afterwards is one of its old chunks, or the new one at `t`.
    have hcases : ∀ u, ∀ h ∈ ((s.setThread t
        { s.threads t with pc := .answered size addr }).threads u).chunks,
          h ∈ (s.threads u).chunks ∨ h = addr ∧ u = t := by
      intro u h hh
      by_cases hu : u = t
      · subst hu
        rw [hmine] at hh
        rcases List.mem_append.mp hh with hold | hnew
        · exact Or.inl hold
        · exact Or.inr ⟨List.mem_singleton.mp hnew, rfl⟩
      · rw [hother u hu] at hh
        exact Or.inl hh
    refine ⟨?_, ?_, ?_, ?_, ?_, ?_, ?_, inv.apart⟩
    · intro n
      by_cases hn : n = node
      · subst hn
        simpa using hok
      · simpa [hn] using inv.directory n
    · intro u
      rw [hlog u]
      exact inv.allocator u
    · intro u
      by_cases hu : u = t
      · subst hu
        have hsize := inv.sized u
        rw [hpc] at hsize
        simpa [State.setThread, Pc.size] using hsize
      · simpa [State.setThread, hu] using inv.sized u
    · intro u h hh
      rcases hcases u h hh with hold | ⟨hnew, -⟩
      · refine (inv.issued u h hold).mono ?_
        by_cases hn : h.nodeID = node
        · rw [hn]
          simp [htail]
        · simp [hn]
      · rw [hnew, haddr]
        refine ⟨(s.directory node 0).bitmapTail, rfl, (inv.directory node).pos, ?_, hnode, hfits⟩
        simp [htail]
    · intro u
      by_cases hu : u = t
      · subst hu
        rw [hmine]
        exact List.nodup_append.mpr ⟨inv.once u, List.nodup_singleton _, by
          intro a ha b hb hab
          rw [List.mem_singleton.mp hb] at hab
          exact hfresh u (hab ▸ ha)⟩
      · rw [hother u hu]
        exact inv.once u
    · intro u v h hu hv
      rcases hcases u h hu with hold | ⟨hnew, hut⟩
      · rcases hcases v h hv with hold' | ⟨hnew, -⟩
        · exact inv.owner u v h hold hold'
        · exact absurd (hnew ▸ hold) (hfresh u)
      · rcases hcases v h hv with hold | ⟨-, hvt⟩
        · exact absurd (hnew ▸ hold) (hfresh v)
        · rw [hut, hvt]
    · intro p hp
      rw [hlog p.1]
      exact inv.placed p hp
  · cases h

/-- The chunk that was on its way is in use from now on, and none of it is taken yet. -/
theorem Inv.setChunck (inv : Inv conf s) {size : Nat} {addr : GlobalAddress}
    (hpc : (s.threads t).pc = .answered size addr) :
    Inv conf (s.setThread t
      { (s.threads t).nextTarget conf with
        allocator := (s.threads t).allocator.setChunck addr
        pc := .idle }) := by
  have honce := inv.once t
  simp only [Local.chunks, hpc, Pc.inFlight] at honce
  have hnew : addr ∉ (s.threads t).allocator.logHeads := by
    intro hmem
    exact List.disjoint_of_nodup_append honce hmem (List.mem_singleton_self addr)
  refine inv.setThread (LocalAllocator.ok_setChunck _ addr) (Nat.zero_le _) ?_ ?_
  · simp [Local.chunks, Pc.inFlight, hpc]
  · intro r ⟨h, hh, hwithin, _⟩
    refine ⟨h, List.mem_append_left _ hh, hwithin, fun hcur => ?_⟩
    have hcur : h = addr := hcur
    exact absurd (hcur ▸ hh) hnew

theorem Inv.receive (inv : Inv conf s) {size : Nat} {addr : GlobalAddress}
    (hpc : (s.threads t).pc = .answered size addr) : Inv conf (receive conf s t size addr) := by
  have hsize : size ≤ kChunkSize := by
    have hsized := inv.sized t
    rwa [hpc] at hsized
  have hallocator : ((s.threads t).nextTarget conf).allocator = (s.threads t).allocator := by
    unfold Local.nextTarget
    split <;> rfl
  have inv' := (inv.setChunck hpc).take (t := t) size ?_ ?_ ?_
  · simpa [Alloc.receive, hallocator, LocalAllocator.malloc_setChunck _ _ hsize, State.finish,
      State.setThread, Function.update_idem] using inv'
  · simp [State.setThread, Pc.inFlight]
  · simp [State.setThread]
  · simpa [State.setThread] using hsize

theorem Inv.step {s' : State} (inv : Inv conf s) (a : Action) (hsized : a.sized)
    (h : Alloc.step conf s a = some s') : Inv conf s' := by
  cases a with
  | alloc t size =>
      simp only [Alloc.step] at h
      split at h
      · rename_i hpc
        cases h
        exact inv.alloc hpc hsized.2
      · cases h
  | serve t =>
      simp only [Alloc.step] at h
      split at h
      · rename_i hpc
        exact inv.serve hpc h
      · cases h
  | receive t =>
      simp only [Alloc.step] at h
      split at h
      · rename_i hpc
        cases h
        exact inv.receive hpc
      · cases h

end

theorem reachable_inv {conf : Conf} {s : State}
    (h : (machine conf).ReachableBy (fun _ a => a.sized) s) : Inv conf s := by
  refine h.invariant ?_ ?_
  · intro s hs
    exact hs ▸ inv_init conf
  · intro s a s' inv hsized hstep
    exact inv.step a hsized hstep

/-! ### What the calls return -/

/-- A region that was returned is inside a chunk of a node's memory other than the first. -/
theorem Inv.region {conf : Conf} {s : State} (inv : Inv conf s) {p : Thread × Region}
    (hp : p ∈ s.regions) : ∃ n i, n < conf.mnNR ∧ 0 < i ∧ p.2.Within (chunk n i) ∧
      (i + 1) * kChunkSize ≤ conf.bytes := by
  obtain ⟨h, hh, hwithin, -⟩ := inv.placed p hp
  obtain ⟨i, heq, hpos, -, hnode, hfits⟩ := inv.issued p.1 h (List.mem_append_left _ hh)
  refine ⟨h.nodeID, i, hnode, hpos, ?_, hfits⟩
  rw [heq] at hwithin
  exact hwithin

/--
**Regions are disjoint, inside one chunk of one node's memory, and off every first chunk.**

So none of them starts at `Null` or touches a root pointer.
-/
theorem alloc_disjoint (conf : Conf) {s : State}
    (h : (machine conf).ReachableBy (fun _ a => a.sized) s) :
    s.regions.Pairwise (fun p q => Disjoint p.2.bytes q.2.bytes) ∧
      ∀ p ∈ s.regions,
        (∃ n i, n < conf.mnNR ∧ p.2.bytes ⊆ (chunk n i).bytes ∧ p.2.addr.nodeID = n ∧
          p.2.addr.offset + p.2.size ≤ conf.bytes) ∧
        (∀ n, Disjoint p.2.bytes (chunk n 0).bytes) ∧
        p.2.addr ≠ .Null ∧
        ∀ treeId < 2 ^ 16, Disjoint p.2.bytes (Region.bytes ⟨getRootPtrPtr treeId, 8⟩) := by
  have inv := reachable_inv h
  refine ⟨inv.apart, fun p hp => ?_⟩
  obtain ⟨n, i, hnode, hpos, hwithin, hfits⟩ := inv.region hp
  have hfirst : ∀ m, Disjoint p.2.bytes (chunk m 0).bytes := by
    intro m
    have hchunk := Region.chunk_disjoint (n := n) (m := m) (Or.inr (Nat.ne_of_gt hpos))
    exact Set.disjoint_of_subset_left hwithin.subset hchunk
  refine ⟨⟨n, i, hnode, hwithin.subset, hwithin.node, ?_⟩, hfirst, ?_, ?_⟩
  · have hend : p.2.addr.offset + p.2.size ≤ i * kChunkSize + kChunkSize := hwithin.fits
    rw [Nat.succ_mul] at hfits
    omega
  · intro hnull
    have hle : i * kChunkSize ≤ p.2.addr.offset := hwithin.le
    rw [hnull] at hle
    have hchunk : 0 < i * kChunkSize := Nat.mul_pos hpos (by decide)
    exact absurd hle (Nat.not_le.mpr hchunk)
  · intro treeId htree
    exact Set.disjoint_of_subset_right (rootSlot_within htree).subset (hfirst 0)

/-- Two memory nodes of 1 GB. -/
def sample : Conf := ⟨2, 1, by decide⟩

/-- Two threads ask for their first chunk at once, and one of them for a second one. -/
def sampleRun (t u : Thread) : List Action :=
  [.alloc t 1024, .alloc u 1024, .serve u, .serve t, .receive t, .receive u,
    .alloc t kChunkSize, .serve t, .receive t]

theorem alloc_disjoint_sample : ∃ s,
    (machine sample).exec (State.init sample) (sampleRun ⟨0, 0⟩ ⟨1, 0⟩) = some s ∧
    s.regions.map (·.2) = [⟨⟨1, 2 * kChunkSize⟩, kChunkSize⟩, ⟨⟨1, kChunkSize⟩, 1024⟩,
      ⟨⟨0, kChunkSize⟩, 1024⟩] ∧
    s.regions.Pairwise (fun p q => Disjoint p.2.bytes q.2.bytes) := by
  have hrun : ((machine sample).exec (State.init sample) (sampleRun ⟨0, 0⟩ ⟨1, 0⟩)).map
      (fun s => s.regions.map (·.2)) = some [⟨⟨1, 2 * kChunkSize⟩, kChunkSize⟩,
        ⟨⟨1, kChunkSize⟩, 1024⟩, ⟨⟨0, kChunkSize⟩, 1024⟩] := by
    decide +kernel
  obtain ⟨s, hs, hregions⟩ := Option.map_eq_some_iff.mp hrun
  have hsized : ∀ a ∈ sampleRun ⟨0, 0⟩ ⟨1, 0⟩, a.sized := by
    simp [sampleRun, Action.sized, kChunkSize, MB]
  have hpath := System.path_of_exec_of (G := fun _ a => a.sized) _ (fun _ => hsized) hs
  exact ⟨s, hs, hregions, (alloc_disjoint sample ⟨_, rfl, hpath⟩).1⟩

end Dal.Alloc
