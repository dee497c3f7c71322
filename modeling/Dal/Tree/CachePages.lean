/-
Where the page copies of the index cache are.

`add_to_cache` allocates a copy of a page and hands it to an entry of the skip list, or
frees it again; `invalidate` takes the copy from an entry and queues it; thread 0 frees
what has been queued for long enough.  `Tree/IndexCache.lean` has what the cache answers.
Here it is the pointers, one atomic step at a time, with any number of threads.

Pointers are addresses.  The compare-and-swap of `invalidate` compares addresses, and
`malloc` may hand out an address again once it was freed, so which copy an address
stands for is a matter of the moment: `heap` says that.  `heap`, `copies` and `freed` are
there for the proofs, no step looks at them but `malloc`, which gives a fresh address.

The skip list is a third-party library, taken to insert an entry exactly when there is
none with the same range.  `skiplist_node_cnt`, which is only printed, is left out.
-/
import Dal.Lib.Ownership
import Dal.Lib.Transition

namespace Dal

namespace CachePages

abbrev Key := UInt64

/-- `from` and `to` of a `CacheEntry`; `to` is the last key of the range. -/
structure Range where
  start : Key
  last : Key
  deriving DecidableEq, Repr

/-- The range of the entry for a page, as `add_entry` and `add_to_cache` compute it. -/
def Range.ofPage (lowest highest : Key) : Range := ⟨lowest, highest - 1⟩

abbrev Addr := Nat

/-- Where a thread is: before the step of the same name. -/
inductive Pc
  | idle
  /-- `add_to_cache`: `add_entry`. -/
  | addEntry (entry : Range) (newPage : Addr)
  /-- Conflicted: `find_entry`, and `auto ptr = e->ptr`. -/
  | findEntry (entry : Range) (newPage : Addr)
  /-- The compare-and-swap of `e->ptr` from null. -/
  | revive (entry : Range) (newPage : Addr)
  /-- `free(new_page)`. -/
  | freeNew (newPage : Addr)
  /-- `free_page_cnt.fetch_add(-1)`. -/
  | countDown
  /-- `evict_one`: the two calls of `get_a_random_entry`, and the comparison. -/
  | evictFirst
  | evictSecond (e1 : Range)
  | evictChoose (e1 e2 : Range)
  /-- `invalidate`: `auto ptr = entry->ptr`. -/
  | readPtr (entry : Range)
  /-- The compare-and-swap of `entry->ptr` to null. -/
  | clearPtr (entry : Range) (ptr : Addr)
  /-- `delay_free_list.push`. -/
  | delay (ptr : Addr)
  /-- The leader's part of `search_from_cache`: `free(p.first)`. -/
  | freeFront (ptr : Addr)
  /-- `free_page_cnt.fetch_add(1)`. -/
  | countUp
  /-- `delay_free_list.pop`. -/
  | popFront
  deriving DecidableEq, Repr

structure State (Thread : Type) where
  /-- The ranges that have an entry in the skip list. -/
  entries : Finset Range
  ptr : Range → Option Addr
  delayFreeList : List Addr
  freePageCnt : Int
  allPageCnt : Int
  pc : Thread → Pc
  /-- The copy that is live at an address. -/
  heap : Addr → Option Nat
  /-- How many copies were ever allocated; they are numbered. -/
  copies : Nat
  /-- What was freed, in order: `none` if nothing was live at the address. -/
  freed : List (Option Nat)

inductive Action (Thread : Type)
  /-- `add_to_cache` of a page with these fences; `malloc` gives `newPage`. -/
  | addToCache (t : Thread) (lowest highest : Key) (newPage : Addr)
  | invalidate (t : Thread) (entry : Range)
  /-- `search_from_cache`; `isOld` is how the timestamp of the front compares. -/
  | searchFromCache (t : Thread) (isOld : Bool)
  /-- What `get_a_random_entry` returns. -/
  | pick (t : Thread) (entry : Range)
  /-- The frequencies that `evict_one` has read. -/
  | choose (t : Thread) (freq1 freq2 : Nat)
  /-- The next step of the operation the thread is in. -/
  | next (t : Thread)
  deriving Repr

variable {Thread : Type} [DecidableEq Thread]

namespace State

def goto (s : State Thread) (t : Thread) (p : Pc) : State Thread :=
  { s with pc := Function.update s.pc t p }

omit [DecidableEq Thread] in
def malloc (s : State Thread) (a : Addr) : State Thread :=
  { s with heap := Function.update s.heap a (some s.copies), copies := s.copies + 1 }

omit [DecidableEq Thread] in
def free (s : State Thread) (a : Addr) : State Thread :=
  { s with heap := Function.update s.heap a none, freed := s.freed ++ [s.heap a] }

omit [DecidableEq Thread] in
def setPtr (s : State Thread) (entry : Range) (p : Option Addr) : State Thread :=
  { s with ptr := Function.update s.ptr entry p }

/-- The next step of the operation thread `t` is in. -/
def next (s : State Thread) (t : Thread) : Option (State Thread) :=
  match s.pc t with
  | .addEntry entry newPage =>
      if entry ∈ s.entries then some (s.goto t (.findEntry entry newPage))
      else some (({ s with entries := insert entry s.entries }.setPtr entry
        (some newPage)).goto t .countDown)
  | .findEntry entry newPage =>
      if entry ∈ s.entries ∧ s.ptr entry = none then some (s.goto t (.revive entry newPage))
      else some (s.goto t (.freeNew newPage))
  | .revive entry newPage =>
      if s.ptr entry = none then some ((s.setPtr entry (some newPage)).goto t .countDown)
      else some (s.goto t (.freeNew newPage))
  | .freeNew newPage => some ((s.free newPage).goto t .idle)
  | .countDown =>
      some ({ s with freePageCnt := s.freePageCnt - 1 }.goto t
        (if s.freePageCnt ≤ 0 then .evictFirst else .idle))
  | .readPtr entry =>
      match s.ptr entry with
      | none => some (s.goto t .idle)
      | some ptr => some (s.goto t (.clearPtr entry ptr))
  | .clearPtr entry ptr =>
      if s.ptr entry = some ptr then some ((s.setPtr entry none).goto t (.delay ptr))
      else some (s.goto t .idle)
  | .delay ptr =>
      some ({ s with delayFreeList := s.delayFreeList ++ [ptr] }.goto t .idle)
  | .freeFront ptr => some ((s.free ptr).goto t .countUp)
  | .countUp => some ({ s with freePageCnt := s.freePageCnt + 1 }.goto t .popFront)
  | .popFront => some ({ s with delayFreeList := s.delayFreeList.tail }.goto t .idle)
  | .idle | .evictFirst | .evictSecond _ | .evictChoose _ _ => none

/-- The step of an action; only `leader` is a leader. -/
def step (leader : Thread) (s : State Thread) : Action Thread → Option (State Thread)
  | .addToCache t lowest highest newPage =>
      if s.pc t = .idle ∧ s.heap newPage = none then
        some ((s.malloc newPage).goto t (.addEntry (.ofPage lowest highest) newPage))
      else none
  | .invalidate t entry =>
      if s.pc t = .idle ∧ entry ∈ s.entries then some (s.goto t (.readPtr entry)) else none
  | .searchFromCache t isOld =>
      if s.pc t = .idle then
        match s.delayFreeList with
        | [] => some s
        | ptr :: _ => if t = leader ∧ isOld then some (s.goto t (.freeFront ptr)) else some s
      else none
  | .pick t entry =>
      if entry ∈ s.entries ∧ s.ptr entry ≠ none then
        match s.pc t with
        | .evictFirst => some (s.goto t (.evictSecond entry))
        | .evictSecond e1 => some (s.goto t (.evictChoose e1 entry))
        | _ => none
      else none
  | .choose t freq1 freq2 =>
      match s.pc t with
      | .evictChoose e1 e2 =>
          some (s.goto t (if freq1 < freq2 then .readPtr e1 else .readPtr e2))
      | _ => none
  | .next t => s.next t

/-- A cache that was just made. -/
def Init (s : State Thread) : Prop :=
  s.entries = ∅ ∧ s.ptr = (fun _ => none) ∧ s.delayFreeList = [] ∧
    s.freePageCnt = s.allPageCnt ∧ s.pc = (fun _ => .idle) ∧
    s.heap = (fun _ => none) ∧ s.copies = 0 ∧ s.freed = []

/-- No operation is in progress. -/
def AtRest (s : State Thread) : Prop := ∀ t, s.pc t = .idle

end State

/-- The threads of one node at its index cache, in any order. -/
def machine (leader : Thread) : System (State Thread) (Action Thread) where
  Init := State.Init
  step := State.step leader

/-! ### What a thread has in its hands -/

namespace Pc

/-- The copy that a thread has and nobody else. -/
def page : Pc → Option Addr
  | .addEntry _ a | .findEntry _ a | .revive _ a | .freeNew a | .delay a => some a
  | _ => none

/-- The entries whose pointer a thread may go on to write. -/
def entries : Pc → List Range
  | .revive e _ | .evictSecond e | .readPtr e | .clearPtr e _ => [e]
  | .evictChoose e1 e2 => [e1, e2]
  | _ => []

/-- By how much `free_page_cnt` has yet to move for what the thread has done. -/
def debt : Pc → Int
  | .countDown | .popFront => -1
  | .delay _ => 1
  | _ => 0

/-- In the leader's part of `search_from_cache`. -/
def leads : Pc → Bool
  | .freeFront _ | .countUp | .popFront => true
  | _ => false

/-- The front of the list is freed but still in the list. -/
def spent : Pc → Bool
  | .countUp | .popFront => true
  | _ => false

/-- What the leader knows about the list. -/
def Fits (list : List Addr) : Pc → Prop
  | .freeFront a => list.head? = some a
  | .countUp | .popFront => list.head?.isSome
  | _ => True

theorem Fits.of_not_leads {list : List Addr} {p : Pc} (h : p.leads = false) : p.Fits list := by
  cases p <;> trivial

/-- The list only grows at its end while the leader looks at its front. -/
theorem Fits.mono {list list' : List Addr} {p : Pc} (h : p.Fits list)
    (hlist : ∀ a, list.head? = some a → list'.head? = some a) : p.Fits list' := by
  have hsome : list.head?.isSome → list'.head?.isSome := by
    intro hs
    obtain ⟨a, ha⟩ := Option.isSome_iff_exists.mp hs
    rw [hlist a ha]
    rfl
  cases p with
  | freeFront a => exact hlist a h
  | countUp => exact hsome h
  | popFront => exact hsome h
  | _ => trivial

end Pc

/-- The threads are where they can be, with entries that are there. -/
structure Phases (leader : Thread) (entries : Finset Range) (list : List Addr)
    (pc : Thread → Pc) : Prop where
  known : ∀ t, ∀ e ∈ (pc t).entries, e ∈ entries
  leads : ∀ t, (pc t).leads = true → t = leader
  fits : (pc leader).Fits list

namespace Phases

variable {leader t : Thread} {entries entries' : Finset Range} {list list' : List Addr}
  {pc : Thread → Pc} {p : Pc}

theorem goto (h : Phases leader entries list pc) (hentries : entries ⊆ entries')
    (hlist : t ≠ leader → ∀ a, list.head? = some a → list'.head? = some a)
    (hknown : ∀ e ∈ p.entries, e ∈ entries') (hleads : p.leads = true → t = leader)
    (hfits : p.Fits list') :
    Phases leader entries' list' (Function.update pc t p) := by
  refine ⟨fun u e he => ?_, fun u hu => ?_, ?_⟩
  · by_cases hut : u = t
    · rw [hut, Function.update_self] at he
      exact hknown e he
    · rw [Function.update_of_ne hut] at he
      exact hentries (h.known u e he)
  · by_cases hut : u = t
    · rw [hut, Function.update_self] at hu
      exact hut.trans (hleads hu)
    · rw [Function.update_of_ne hut] at hu
      exact h.leads u hu
  · by_cases hlt : leader = t
    · rw [hlt, Function.update_self]
      exact hfits
    · rw [Function.update_of_ne hlt]
      exact h.fits.mono (hlist (Ne.symm hlt))

/-- A step outside the leader's part, with the list as it is or longer. -/
theorem away (h : Phases leader entries list pc) (hentries : entries ⊆ entries')
    (hlist : ∀ a, list.head? = some a → list'.head? = some a)
    (hknown : ∀ e ∈ p.entries, e ∈ entries') (hleads : p.leads = false) :
    Phases leader entries' list' (Function.update pc t p) :=
  h.goto hentries (fun _ => hlist) hknown (by simp [hleads]) (.of_not_leads hleads)

end Phases

/-- What of the list is still to be freed. -/
def pending (leader : Thread) (pc : Thread → Pc) (list : List Addr) : List Addr :=
  if (pc leader).spent then list.tail else list

section Pending

variable {leader t : Thread} {pc : Thread → Pc} {p : Pc} {list : List Addr} {a : Addr}

theorem pending_away (h : p.spent = (pc t).spent) :
    pending leader (Function.update pc t p) list = pending leader pc list := by
  unfold pending
  by_cases hlt : leader = t
  · rw [hlt, Function.update_self, h]
  · rw [Function.update_of_ne hlt]

omit [DecidableEq Thread] in
theorem pending_spent (h : (pc leader).spent = true) :
    pending leader pc list = list.tail := if_pos h

omit [DecidableEq Thread] in
theorem pending_whole (h : (pc leader).spent = false) : pending leader pc list = list :=
  if_neg (by simp [h])

omit [DecidableEq Thread] in
theorem pending_append (h : (pc leader).Fits list) :
    pending leader pc (list ++ [a]) = pending leader pc list ++ [a] := by
  unfold pending
  by_cases hspent : (pc leader).spent = true
  · rw [if_pos hspent, if_pos hspent]
    -- the front is still there, so the new end is behind it
    have hne : list ≠ [] := by
      rintro rfl
      cases hpc : pc leader <;> rw [hpc] at hspent h <;> cases hspent <;> cases h
    exact List.tail_append_of_ne_nil hne
  · rw [if_neg hspent, if_neg hspent]

end Pending

open Ownership

variable [Fintype Thread]

/-- The invariant of a run. -/
structure Inv (leader : Thread) (s : State Thread) : Prop where
  phases : Phases leader s.entries s.delayFreeList s.pc
  accounted : Accounted s.heap s.entries s.ptr Finset.univ (fun t => (s.pc t).page)
    (pending leader s.pc s.delayFreeList)
  allocations : Allocations s.heap s.copies s.freed
  balance : s.freePageCnt + filled s.entries s.ptr + s.delayFreeList.length
    + ∑ t, (s.pc t).debt = s.allPageCnt

omit [Fintype Thread] in
theorem page_goto (pc : Thread → Pc) (t : Thread) (p : Pc) :
    (fun u => (Function.update pc t p u).page)
      = Function.update (fun u => (pc u).page) t p.page := by
  funext u
  by_cases hut : u = t
  · rw [hut, Function.update_self, Function.update_self]
  · rw [Function.update_of_ne hut, Function.update_of_ne hut]

namespace Inv

variable {leader t : Thread} {s : State Thread} {p : Pc} {e : Range} {a : Addr}

/-- What the sum comes to when a thread goes from a debt `d` to a debt `d'`. -/
theorem balance_goto (h : Inv leader s) (d d' : Int) (hfrom : (s.pc t).debt = d)
    (hto : p.debt = d') :
    s.freePageCnt + filled s.entries s.ptr + s.delayFreeList.length
      + ∑ u, (Function.update s.pc t p u).debt + d = s.allPageCnt + d' := by
  have hsum := sum_update (Finset.mem_univ t) s.pc p Pc.debt
  have hbalance := h.balance
  omega

/-- A step that moves nothing. -/
theorem quiet {q : Pc} (h : Inv leader s) (hpc : s.pc t = q) (hpage : p.page = q.page)
    (hdebt : p.debt = q.debt) (hspent : p.spent = q.spent)
    (hknown : ∀ e ∈ p.entries, e ∈ s.entries) (hleads : p.leads = true → t = leader)
    (hfits : p.Fits s.delayFreeList) : Inv leader (s.goto t p) where
  phases := h.phases.goto subset_rfl (fun _ _ ha => ha) hknown hleads hfits
  accounted := by
    show Accounted s.heap s.entries s.ptr Finset.univ
      (fun u => (Function.update s.pc t p u).page) _
    rw [page_goto, hpage, ← hpc, Function.update_eq_self]
    show Accounted s.heap s.entries s.ptr Finset.univ _
      (pending leader (Function.update s.pc t p) s.delayFreeList)
    rw [pending_away (hspent.trans (congrArg Pc.spent hpc.symm))]
    exact h.accounted
  allocations := h.allocations
  balance := by
    have hbalance := h.balance_goto (t := t) q.debt q.debt (by rw [hpc]) hdebt
    simp only [State.goto]
    omega

theorem malloc (h : Inv leader s) (hidle : s.pc t = .idle) (ha : s.heap a = none) :
    Inv leader ((s.malloc a).goto t (.addEntry e a)) where
  phases := h.phases.away subset_rfl (fun _ ha => ha) (by simp [Pc.entries]) rfl
  accounted := by
    simp only [State.goto, State.malloc]
    rw [page_goto, pending_away (by rw [hidle]; rfl)]
    exact h.accounted.alloc (Finset.mem_univ t) (by rw [hidle]; rfl) ha
  allocations := h.allocations.alloc ha
  balance := by
    have hbalance := h.balance_goto (p := .addEntry e a) 0 0 (by rw [hidle]; rfl) rfl
    simpa only [State.goto, State.malloc, add_zero] using hbalance

/-- The copy of an `add_entry` goes to the new entry. -/
theorem insert (h : Inv leader s) (hpc : s.pc t = .addEntry e a) (he : e ∉ s.entries) :
    Inv leader (({ s with entries := insert e s.entries }.setPtr e (some a)).goto t
      .countDown) where
  phases := h.phases.away (Finset.subset_insert ..) (fun _ ha => ha) (by simp [Pc.entries]) rfl
  accounted := by
    simp only [State.goto, State.setPtr]
    rw [page_goto, pending_away (by rw [hpc]; rfl)]
    exact h.accounted.storeNew he (Finset.mem_univ t) (by rw [hpc]; rfl)
  allocations := h.allocations
  balance := by
    have hbalance := h.balance_goto (p := .countDown) 0 (-1) (by rw [hpc]; rfl) rfl
    have hfilled := filled_insert (f := s.ptr) (p := some a) he
    simp only [State.goto, State.setPtr, Option.isSome_some, if_true] at hfilled ⊢
    omega

/-- The copy goes to an entry that has lost its own. -/
theorem revive (h : Inv leader s) (hpc : s.pc t = .revive e a) (hnull : s.ptr e = none) :
    Inv leader ((s.setPtr e (some a)).goto t .countDown) where
  phases := h.phases.away subset_rfl (fun _ ha => ha) (by simp [Pc.entries]) rfl
  accounted := by
    have he : e ∈ s.entries := h.phases.known t e (by rw [hpc]; simp [Pc.entries])
    simp only [State.goto, State.setPtr]
    rw [page_goto, pending_away (by rw [hpc]; rfl)]
    exact h.accounted.store he hnull (Finset.mem_univ t) (by rw [hpc]; rfl)
  allocations := h.allocations
  balance := by
    have he : e ∈ s.entries := h.phases.known t e (by rw [hpc]; simp [Pc.entries])
    have hbalance := h.balance_goto (p := .countDown) 0 (-1) (by rw [hpc]; rfl) rfl
    have hfilled := filled_update (f := s.ptr) (p := some a) he
    simp only [State.goto, State.setPtr, hnull, Option.isSome_some, Option.isSome_none,
      if_true, Bool.false_eq_true, if_false] at hfilled ⊢
    omega

theorem freeNew (h : Inv leader s) (hpc : s.pc t = .freeNew a) :
    Inv leader ((s.free a).goto t .idle) where
  phases := h.phases.away subset_rfl (fun _ ha => ha) (by simp [Pc.entries]) rfl
  accounted := by
    simp only [State.goto, State.free]
    rw [page_goto, pending_away (by rw [hpc]; rfl)]
    exact h.accounted.free (Finset.mem_univ t) (by rw [hpc]; rfl)
  allocations := h.allocations.free
    (h.accounted.live_of_hand (Finset.mem_univ t) (show (s.pc t).page = some a by rw [hpc]; rfl))
  balance := by
    have hbalance := h.balance_goto (p := .idle) 0 0 (by rw [hpc]; rfl) rfl
    simpa only [State.goto, State.free, add_zero] using hbalance

theorem countDown (h : Inv leader s) (hpc : s.pc t = .countDown)
    (hp : p = .evictFirst ∨ p = .idle) :
    Inv leader ({ s with freePageCnt := s.freePageCnt - 1 }.goto t p) where
  phases := by
    refine h.phases.away subset_rfl (fun _ ha => ha) ?_ ?_
    · rcases hp with rfl | rfl <;> simp [Pc.entries]
    · rcases hp with rfl | rfl <;> rfl
  accounted := by
    have hpage : p.page = (s.pc t).page := by rcases hp with rfl | rfl <;> rw [hpc] <;> rfl
    have hspent : p.spent = (s.pc t).spent := by rcases hp with rfl | rfl <;> rw [hpc] <;> rfl
    simp only [State.goto]
    rw [page_goto, pending_away hspent, hpage, Function.update_eq_self]
    exact h.accounted
  allocations := h.allocations
  balance := by
    have hto : p.debt = 0 := by rcases hp with rfl | rfl <;> rfl
    have hbalance := h.balance_goto (-1) 0 (by rw [hpc]; rfl) hto
    simp only [State.goto]
    omega

/-- `invalidate` takes the copy that is at the address now, whichever it saw before. -/
theorem clearPtr (h : Inv leader s) (hpc : s.pc t = .clearPtr e a) (hptr : s.ptr e = some a) :
    Inv leader ((s.setPtr e none).goto t (.delay a)) where
  phases := h.phases.away subset_rfl (fun _ ha => ha) (by simp [Pc.entries]) rfl
  accounted := by
    have he : e ∈ s.entries := h.phases.known t e (by rw [hpc]; simp [Pc.entries])
    simp only [State.goto, State.setPtr]
    rw [page_goto, pending_away (by rw [hpc]; rfl)]
    exact h.accounted.take he hptr (Finset.mem_univ t) (by rw [hpc]; rfl)
  allocations := h.allocations
  balance := by
    have he : e ∈ s.entries := h.phases.known t e (by rw [hpc]; simp [Pc.entries])
    have hbalance := h.balance_goto (p := .delay a) 0 1 (by rw [hpc]; rfl) rfl
    have hfilled := filled_update (f := s.ptr) (p := none) he
    simp only [State.goto, State.setPtr, hptr, Option.isSome_some, Option.isSome_none,
      if_true, Bool.false_eq_true, if_false] at hfilled ⊢
    omega

theorem delay (h : Inv leader s) (hpc : s.pc t = .delay a) :
    Inv leader ({ s with delayFreeList := s.delayFreeList ++ [a] }.goto t .idle) where
  phases := by
    refine h.phases.away subset_rfl (fun b hb => ?_) (by simp [Pc.entries]) rfl
    show (s.delayFreeList ++ [a]).head? = some b
    rw [List.head?_append, hb, Option.some_or]
  accounted := by
    simp only [State.goto]
    rw [page_goto, pending_away (by rw [hpc]; rfl), pending_append h.phases.fits]
    exact h.accounted.push (Finset.mem_univ t) (by rw [hpc]; rfl)
  allocations := h.allocations
  balance := by
    have hbalance := h.balance_goto (p := .idle) 1 0 (by rw [hpc]; rfl) rfl
    simp only [State.goto, List.length_append, List.length_singleton, Nat.cast_add,
      Nat.cast_one]
    omega

/-! The leader's part -/

theorem freeFront (h : Inv leader s) (hpc : s.pc t = .freeFront a) :
    Inv leader ((s.free a).goto t .countUp) := by
  have ht : t = leader := h.phases.leads t (by rw [hpc]; rfl)
  subst ht
  have hfits := h.phases.fits
  rw [hpc] at hfits
  obtain ⟨rest, hlist⟩ : ∃ rest, s.delayFreeList = a :: rest :=
    List.head?_eq_some_iff.mp hfits
  have hall := h.accounted
  rw [pending_whole (by rw [hpc]; rfl), hlist] at hall
  refine ⟨?_, ?_, h.allocations.free (hall.live_of_mem (List.mem_cons_self ..)), ?_⟩
  · refine h.phases.goto subset_rfl (fun _ _ ha => ha) (by simp [Pc.entries]) (fun _ => rfl) ?_
    show s.delayFreeList.head?.isSome
    rw [hlist]
    rfl
  · simp only [State.goto, State.free]
    have hpage : Pc.page .countUp = (s.pc t).page := by rw [hpc]; rfl
    rw [page_goto, pending_spent (by rw [Function.update_self]; rfl), hlist, List.tail_cons,
      hpage, Function.update_eq_self]
    exact hall.freeHead
  · have hbalance := h.balance_goto (p := .countUp) 0 0 (by rw [hpc]; rfl) rfl
    simpa only [State.goto, State.free, add_zero] using hbalance

theorem countUp (h : Inv leader s) (hpc : s.pc t = .countUp) :
    Inv leader ({ s with freePageCnt := s.freePageCnt + 1 }.goto t .popFront) where
  phases := by
    have ht : t = leader := h.phases.leads t (by rw [hpc]; rfl)
    have hfits := h.phases.fits
    rw [← ht, hpc] at hfits
    exact h.phases.goto subset_rfl (fun _ _ ha => ha) (by simp [Pc.entries]) (fun _ => ht) hfits
  accounted := by
    have hpage : Pc.page .popFront = (s.pc t).page := by rw [hpc]; rfl
    simp only [State.goto]
    rw [page_goto, pending_away (by rw [hpc]; rfl), hpage, Function.update_eq_self]
    exact h.accounted
  allocations := h.allocations
  balance := by
    have hbalance := h.balance_goto (p := .popFront) 0 (-1) (by rw [hpc]; rfl) rfl
    simp only [State.goto]
    omega

theorem popFront (h : Inv leader s) (hpc : s.pc t = .popFront) :
    Inv leader ({ s with delayFreeList := s.delayFreeList.tail }.goto t .idle) := by
  have ht : t = leader := h.phases.leads t (by rw [hpc]; rfl)
  subst ht
  have hfits := h.phases.fits
  rw [hpc] at hfits
  obtain ⟨a, ha⟩ := Option.isSome_iff_exists.mp hfits
  obtain ⟨rest, hlist⟩ := List.head?_eq_some_iff.mp ha
  have hall := h.accounted
  rw [pending_spent (by rw [hpc]; rfl)] at hall
  refine ⟨?_, ?_, h.allocations, ?_⟩
  · exact h.phases.goto subset_rfl (fun hne => absurd rfl hne) (by simp [Pc.entries])
      (by simp [Pc.leads]) trivial
  · have hpage : Pc.page .idle = (s.pc t).page := by rw [hpc]; rfl
    simp only [State.goto]
    rw [page_goto, pending_whole (by rw [Function.update_self]; rfl), hpage,
      Function.update_eq_self]
    exact hall
  · have hbalance := h.balance_goto (p := .idle) (-1) 0 (by rw [hpc]; rfl) rfl
    simp only [State.goto, hlist, List.tail_cons, List.length_cons, Nat.cast_add,
      Nat.cast_one] at hbalance ⊢
    omega

/-- Every step of an operation keeps the invariant. -/
theorem next {s' : State Thread} (h : Inv leader s) (hstep : s.next t = some s') :
    Inv leader s' := by
  cases hpc : s.pc t with
  | addEntry e a =>
      simp only [State.next, hpc] at hstep
      by_cases he : e ∈ s.entries
      · rw [if_pos he] at hstep
        cases hstep
        exact h.quiet hpc rfl rfl rfl (by simp [Pc.entries]) (by simp [Pc.leads]) trivial
      · rw [if_neg he] at hstep
        cases hstep
        exact h.insert hpc he
  | findEntry e a =>
      simp only [State.next, hpc] at hstep
      by_cases he : e ∈ s.entries ∧ s.ptr e = none
      · rw [if_pos he] at hstep
        cases hstep
        exact h.quiet hpc rfl rfl rfl (by simpa [Pc.entries] using he.1) (by simp [Pc.leads]) trivial
      · rw [if_neg he] at hstep
        cases hstep
        exact h.quiet hpc rfl rfl rfl (by simp [Pc.entries]) (by simp [Pc.leads]) trivial
  | revive e a =>
      simp only [State.next, hpc] at hstep
      by_cases hnull : s.ptr e = none
      · rw [if_pos hnull] at hstep
        cases hstep
        exact h.revive hpc hnull
      · rw [if_neg hnull] at hstep
        cases hstep
        exact h.quiet hpc rfl rfl rfl (by simp [Pc.entries]) (by simp [Pc.leads]) trivial
  | freeNew a =>
      simp only [State.next, hpc] at hstep
      cases hstep
      exact h.freeNew hpc
  | countDown =>
      simp only [State.next, hpc] at hstep
      cases hstep
      refine h.countDown hpc ?_
      by_cases hcnt : s.freePageCnt ≤ 0
      · rw [if_pos hcnt]
        exact Or.inl rfl
      · rw [if_neg hcnt]
        exact Or.inr rfl
  | readPtr e =>
      have he : e ∈ s.entries := h.phases.known t e (by rw [hpc]; simp [Pc.entries])
      simp only [State.next, hpc] at hstep
      cases hptr : s.ptr e with
      | none =>
          rw [hptr] at hstep
          cases hstep
          exact h.quiet hpc rfl rfl rfl (by simp [Pc.entries]) (by simp [Pc.leads]) trivial
      | some a =>
          rw [hptr] at hstep
          cases hstep
          exact h.quiet hpc rfl rfl rfl (by simpa [Pc.entries] using he) (by simp [Pc.leads]) trivial
  | clearPtr e a =>
      simp only [State.next, hpc] at hstep
      by_cases hptr : s.ptr e = some a
      · rw [if_pos hptr] at hstep
        cases hstep
        exact h.clearPtr hpc hptr
      · rw [if_neg hptr] at hstep
        cases hstep
        exact h.quiet hpc rfl rfl rfl (by simp [Pc.entries]) (by simp [Pc.leads]) trivial
  | delay a =>
      simp only [State.next, hpc] at hstep
      cases hstep
      exact h.delay hpc
  | freeFront a =>
      simp only [State.next, hpc] at hstep
      cases hstep
      exact h.freeFront hpc
  | countUp =>
      simp only [State.next, hpc] at hstep
      cases hstep
      exact h.countUp hpc
  | popFront =>
      simp only [State.next, hpc] at hstep
      cases hstep
      exact h.popFront hpc
  | idle => simp [State.next, hpc] at hstep
  | evictFirst => simp [State.next, hpc] at hstep
  | evictSecond e => simp [State.next, hpc] at hstep
  | evictChoose e1 e2 => simp [State.next, hpc] at hstep

omit [DecidableEq Thread] in
theorem start (hinit : State.Init s) : Inv leader s := by
  obtain ⟨hentries, hptr, hlist, hcnt, hpc, hheap, hcopies, hfreed⟩ := hinit
  refine ⟨⟨?_, ?_, ?_⟩, ?_, ?_, ?_⟩
  · simp [hpc, Pc.entries]
  · simp [hpc, Pc.leads]
  · rw [hpc]
    trivial
  · intro a
    simp [hentries, hlist, hpc, hheap, held, Pc.page, pending, Pc.spent]
  · rw [hheap, hcopies, hfreed]
    exact Allocations.start
  · simp [hentries, hlist, hpc, hcnt, filled, Pc.debt]

theorem step {s' : State Thread} {act : Action Thread} (h : Inv leader s)
    (hstep : s.step leader act = some s') : Inv leader s' := by
  cases act with
  | addToCache t lowest highest newPage =>
      simp only [State.step] at hstep
      split at hstep
      · rename_i hcond
        cases hstep
        exact h.malloc hcond.1 hcond.2
      · cases hstep
  | invalidate t entry =>
      simp only [State.step] at hstep
      split at hstep
      · rename_i hcond
        cases hstep
        exact h.quiet hcond.1 rfl rfl rfl (by simpa [Pc.entries] using hcond.2)
          (by simp [Pc.leads]) trivial
      · cases hstep
  | searchFromCache t isOld =>
      simp only [State.step] at hstep
      split at hstep
      · rename_i hidle
        split at hstep
        · cases hstep
          exact h
        · rename_i a rest hlist
          split at hstep
          · rename_i hlead
            cases hstep
            refine h.quiet hidle rfl rfl rfl (by simp [Pc.entries]) (fun _ => hlead.1) ?_
            show s.delayFreeList.head? = some a
            rw [hlist]
            rfl
          · cases hstep
            exact h
      · cases hstep
  | pick t entry =>
      simp only [State.step] at hstep
      split at hstep
      · rename_i hcond
        split at hstep
        · rename_i hpc
          cases hstep
          exact h.quiet hpc rfl rfl rfl (by simpa [Pc.entries] using hcond.1)
            (by simp [Pc.leads]) trivial
        · rename_i e1 hpc
          have he1 : e1 ∈ s.entries := h.phases.known t e1 (by rw [hpc]; simp [Pc.entries])
          cases hstep
          exact h.quiet hpc rfl rfl rfl (by simpa [Pc.entries] using ⟨he1, hcond.1⟩)
            (by simp [Pc.leads]) trivial
        · cases hstep
      · cases hstep
  | choose t freq1 freq2 =>
      simp only [State.step] at hstep
      split at hstep
      · rename_i e1 e2 hpc
        have he1 : e1 ∈ s.entries := h.phases.known t e1 (by rw [hpc]; simp [Pc.entries])
        have he2 : e2 ∈ s.entries := h.phases.known t e2 (by rw [hpc]; simp [Pc.entries])
        cases hstep
        by_cases hfreq : freq1 < freq2
        · rw [if_pos hfreq]
          exact h.quiet hpc rfl rfl rfl (by simpa [Pc.entries] using he1)
            (by simp [Pc.leads]) trivial
        · rw [if_neg hfreq]
          exact h.quiet hpc rfl rfl rfl (by simpa [Pc.entries] using he2)
            (by simp [Pc.leads]) trivial
      · cases hstep
  | next t => exact h.next hstep

theorem reachable (h : (machine leader).Reachable s) : Inv leader s :=
  System.ReachableBy.invariant h (fun _ => start) fun _ _ _ hinv _ hstep => hinv.step hstep

end Inv

namespace State

omit [DecidableEq Thread] [Fintype Thread] in
/-- How many entries point to copy `c`. -/
def owners (s : State Thread) (c : Nat) : Nat :=
  (s.entries.filter fun e => (s.ptr e).bind s.heap = some c).card

omit [DecidableEq Thread] [Fintype Thread] in
/-- How often copy `c` waits in `delay_free_list`. -/
def delayed (s : State Thread) (c : Nat) : Nat := (s.delayFreeList.map s.heap).count (some c)

omit [DecidableEq Thread] [Fintype Thread] in
/-- How many entries have a page. -/
def cached (s : State Thread) : Nat := (s.entries.filter fun e => (s.ptr e).isSome).card

end State

/-- Nothing dead is ever freed and no entry points to what was freed; and when no
operation is in progress the counter is right, and every copy is with one entry, in
the list once, or was freed once. -/
theorem cache_pages {leader : Thread} {s : State Thread} (h : (machine leader).Reachable s) :
    none ∉ s.freed ∧ (∀ e ∈ s.entries, ∀ a, s.ptr e = some a → (s.heap a).isSome) ∧
      (s.AtRest →
        s.freePageCnt = s.allPageCnt - s.cached - s.delayFreeList.length ∧
          ∀ c < s.copies, s.owners c + s.delayed c + s.freed.count (some c) = 1) := by
  have hinv := Inv.reachable h
  refine ⟨hinv.allocations.freed_live, fun e he a ha => hinv.accounted.live_of_place he ha,
    fun hrest => ⟨?_, fun c hc => ?_⟩⟩
  · have hbalance := hinv.balance
    have hdebt : ∑ t, (s.pc t).debt = 0 :=
      Finset.sum_eq_zero fun t _ => by rw [hrest t]; rfl
    rw [hdebt, filled_eq_card] at hbalance
    unfold State.cached
    omega
  · have hall := hinv.accounted
    rw [pending_whole (by rw [hrest leader]; rfl)] at hall
    have honce := settled_once hall hinv.allocations (fun t _ => by rw [hrest t]; rfl) hc
    rw [held_eq_card] at honce
    exact honce

/-- Two threads cache the same page; one copy is freed at once, the other is invalidated,
queued and freed by the leader, and its address is used again for a new copy. -/
def sampleRun : List (Action Bool) :=
  let leader := false
  let other := true
  [.addToCache leader 0 10 7, .addToCache other 0 10 8, .next leader, .next other, .next other,
    .next other, .next leader, .invalidate other (.ofPage 0 10), .next other, .next other,
    .next other, .searchFromCache leader true, .next leader, .addToCache other 0 10 7,
    .next other, .next leader, .next other, .next leader, .next other, .next other]

theorem cache_pages_sample : ∃ s : State Bool, (machine false).Reachable s ∧
    s.copies = 3 ∧ s.freed = [some 1, some 0] ∧ s.freePageCnt = 3 ∧
    s.owners 2 + s.delayed 2 + s.freed.count (some 2) = 1 := by
  let s₀ : State Bool := ⟨∅, fun _ => none, [], 4, 4, fun _ => .idle, fun _ => none, 0, []⟩
  have hrun : ((machine false).exec s₀ sampleRun).map
      (fun s => (s.pc false, s.pc true, s.copies, s.freed, s.freePageCnt))
        = some (.idle, .idle, 3, [some 1, some 0], 3) := by
    decide +kernel
  obtain ⟨s, hs, hvalues⟩ := Option.map_eq_some_iff.mp hrun
  simp only [Prod.mk.injEq] at hvalues
  obtain ⟨hpc0, hpc1, hcopies, hfreed, hcnt⟩ := hvalues
  have hreach : (machine false).Reachable s :=
    ⟨s₀, ⟨rfl, rfl, rfl, rfl, rfl, rfl, rfl, rfl⟩, System.path_of_exec _ hs⟩
  have hrest : s.AtRest := Bool.forall_bool.mpr ⟨hpc0, hpc1⟩
  refine ⟨s, hreach, hcopies, hfreed, hcnt, ?_⟩
  exact ((cache_pages hreach).2.2 hrest).2 2 (by rw [hcopies]; decide)

end CachePages

end Dal
