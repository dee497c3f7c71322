/-
The message rings of `src/AbstractMessageConnection.cpp` and `src/RawMessageConnection.cpp`.

The receive pool is posted to the NIC in four batches.  The NIC fills the posted buffers
in the order they were posted; `getMessage` goes over the pool in the same order, and posts
a batch again when it has been over the whole of it.  The send pool has no such care:
`getSendPool` hands its slots out in turn, and what makes one free again is that
`sendRawMessage` signals every 32nd send and polls one completion before each of them.

The caller polls the completion of a message before it calls `getMessage`, and sends the
slot it got from `getSendPool` before it asks for another.  The poll of `sendRawMessage` waits
until there is something in `send_cq`.

`sendCounter` has 64 bits.  When it comes back to 0 the send is signalled and nothing is
polled, so from then on the polls lag one batch more behind the sends.
-/
import Dal.Lib.Transition
import Dal.Lib.Ring
import Mathlib.Algebra.Ring.Nat

namespace Dal.Message

universe u

variable {α : Type u}

/-- `kBatchCount`. -/
def kBatchCount : Nat := 4

/-- `SIGNAL_BATCH`. -/
def SIGNAL_BATCH : Nat := 31

/-- A `messageNR` that the constructor accepts, of at least three batches of signals. -/
structure Size where
  messageNR : Nat
  batches : messageNR % kBatchCount = 0
  least : 96 ≤ messageNR
  short : messageNR < 2 ^ 16

/-- `messageNR / kBatchCount`. -/
def Size.subNR (size : Size) : Nat := size.messageNR / kBatchCount

/-! ### The receive pool -/

/-- The receive pool and the receive queue of the NIC, with what has happened to them. -/
structure Receiver (α : Type u) where
  curMessage : Nat
  /-- The slots that are posted, the next one to be filled first. -/
  posted : List Nat
  pool : Nat → Option α
  /-- All messages that have arrived. -/
  received : List α
  /-- What was in the buffer that each `getMessage` returned. -/
  taken : List (Option α)
  /-- All slots that were ever posted. -/
  posts : List Nat

namespace Receiver

variable (size : Size)

/-- The receives of `recvs[k]`. -/
def recvs (k : Nat) : List Nat := (List.range size.subNR).map (k * size.subNR + ·)

/-- `ibv_post_recv` of `recvs[k]`. -/
def postRecv (r : Receiver α) (k : Nat) : Receiver α :=
  { r with posted := r.posted ++ recvs size k, posts := r.posts ++ recvs size k }

/-- A receive pool of which nothing is posted. -/
def unposted : Receiver α where
  curMessage := 0
  posted := []
  pool _ := none
  received := []
  taken := []
  posts := []

/-- `initRecv`. -/
def initRecv : Receiver α := (List.range kBatchCount).foldl (postRecv size) unposted

/-- A message arrives, and is lost when nothing is posted. -/
def receive (r : Receiver α) (m : α) : Option (Receiver α) :=
  match r.posted with
  | [] => none
  | slot :: posted =>
      some { r with posted := posted, pool := Function.update r.pool slot (some m)
                    received := r.received ++ [m] }

/-- `getMessage`, after the completion of the message was polled. -/
def getMessage (r : Receiver α) : Option (Receiver α) :=
  if r.taken.length < r.received.length then
    let curMessage := (r.curMessage + 1) % size.messageNR
    let r := { r with curMessage := curMessage, taken := r.taken ++ [r.pool r.curMessage] }
    if curMessage % size.subNR = 0 then
      -- The index is computed in `uint32_t`: it is -1 + 4 at the end of the pool.
      let batch := ((curMessage / size.subNR + (2 ^ 32 - 1)) % 2 ^ 32 + kBatchCount) % 2 ^ 32
      some (r.postRecv size (batch % kBatchCount))
    else some r
  else none

end Receiver

/-! ### The send pool -/

/-- The send pool and the send queue of the NIC, with what has happened to them. -/
structure Sender where
  curSend : Nat
  sendCounter : Nat
  /-- The slot that `getSendPool` has handed out and that is to be sent. -/
  holding : Option Nat
  /-- The sends that are not completed, by their number, and whether they are signalled. -/
  inFlight : List (Nat × Bool)
  /-- `send_cq`: the signalled sends whose completion has not been polled. -/
  sendCq : List Nat
  sends : Nat
  /-- How many sends are known to be complete from the completions that were polled. -/
  known : Nat
  /-- Every slot that was handed out, with what was known then. -/
  handedOut : List (Nat × Nat)
  deriving DecidableEq, Repr

namespace Sender

variable (size : Size)

def init : Sender where
  curSend := 0
  sendCounter := 0
  holding := none
  inFlight := []
  sendCq := []
  sends := 0
  known := 0
  handedOut := []

/-- `getSendPool`. -/
def getSendPool (s : Sender) : Option Sender :=
  match s.holding with
  | some _ => none
  | none =>
      some { s with curSend := (s.curSend + 1) % size.messageNR, holding := some s.curSend
                    handedOut := s.handedOut ++ [(s.curSend, s.known)] }

/-- The next send polls a completion. -/
def Polls (s : Sender) : Prop := s.sendCounter &&& SIGNAL_BATCH = 0 ∧ 0 < s.sendCounter

instance (s : Sender) : Decidable s.Polls := by
  unfold Polls
  infer_instance

/-- `pollWithCQ(send_cq, 1, &wc)`, which waits while there is nothing to be polled. -/
def pollWithCQ (s : Sender) : Option Sender :=
  match s.sendCq with
  | [] => none
  | number :: sendCq => some { s with sendCq := sendCq, known := number + 1 }

/-- `rdmaSend` and the increment of the counter. -/
def rdmaSend (s : Sender) : Sender :=
  { s with
    inFlight := s.inFlight ++ [(s.sends, decide (s.sendCounter &&& SIGNAL_BATCH = 0))]
    sends := s.sends + 1
    sendCounter := (s.sendCounter + 1) % 2 ^ 64
    holding := none }

/-- `sendRawMessage` of the slot that was handed out. -/
def sendRawMessage (s : Sender) : Option Sender :=
  match s.holding with
  | none => none
  | some _ => if s.Polls then s.pollWithCQ.map rdmaSend else some s.rdmaSend

/-- The NIC completes its oldest send. -/
def complete (s : Sender) : Option Sender :=
  match s.inFlight with
  | [] => none
  | (number, signalled) :: inFlight =>
      some { s with inFlight := inFlight
                    sendCq := if signalled then s.sendCq ++ [number] else s.sendCq }

end Sender

/-! ### The connection -/

structure Connection (α : Type u) where
  receiver : Receiver α
  sender : Sender

inductive Action (α : Type u)
  | receive (m : α)
  | getMessage
  | getSendPool
  | sendRawMessage
  | complete

def step (size : Size) (c : Connection α) : Action α → Option (Connection α)
  | .receive m => (c.receiver.receive m).map fun r => { c with receiver := r }
  | .getMessage => (c.receiver.getMessage size).map fun r => { c with receiver := r }
  | .getSendPool => (c.sender.getSendPool size).map fun s => { c with sender := s }
  | .sendRawMessage => c.sender.sendRawMessage.map fun s => { c with sender := s }
  | .complete => c.sender.complete.map fun s => { c with sender := s }

/-- A connection after `initRecv`, under any order of arrivals, calls and completions. -/
def machine (α : Type u) (size : Size) : System (Connection α) (Action α) where
  Init c := c = ⟨Receiver.initRecv size, Sender.init⟩
  step := step size

/-- The messages are read in the order they arrived. -/
def Receiver.InOrder (r : Receiver α) : Prop :=
  r.taken = (r.received.take r.taken.length).map some

/-- The slots are posted round after round, a batch each time it was read, and no slot is
posted while it is. -/
structure Receiver.PostsOnce (size : Size) (r : Receiver α) : Prop where
  rounds : r.posts = Ring.window size.messageNR 0 r.posts.length
  batches : r.posts.length = size.messageNR + r.taken.length / size.subNR * size.subNR
  apart : r.posted.Nodup

/-- When a slot was handed out, the sends that had used it were known to be complete. -/
def Sender.Fresh (s : Sender) : Prop :=
  ∀ i j, (hj : j < s.handedOut.length) → (hij : i < j) →
    (s.handedOut[i].1 = s.handedOut[j].1) → i < s.handedOut[j].2

structure Correct (size : Size) (c : Connection α) : Prop where
  inOrder : c.receiver.InOrder
  postsOnce : c.receiver.PostsOnce size
  fresh : c.sender.Fresh

/-! ### Receiving -/

namespace Size

variable (size : Size)

theorem messageNR_eq : size.messageNR = size.subNR * kBatchCount :=
  (Nat.div_mul_cancel (Nat.dvd_of_mod_eq_zero size.batches)).symm

theorem subNR_pos : 0 < size.subNR := by
  have heq := size.messageNR_eq
  have hleast := size.least
  unfold kBatchCount at heq
  omega

end Size

namespace Receiver

variable {size : Size} {r r' : Receiver α}

/-- Batch `q % 4` is what comes after `q` batches. -/
theorem recvs_eq (size : Size) (q : Nat) :
    recvs size (q % kBatchCount) = Ring.window size.messageNR (q * size.subNR) size.subNR := by
  have hlast : q % kBatchCount + 1 ≤ kBatchCount := Nat.mod_lt _ (by decide)
  have hroom : q % kBatchCount * size.subNR + size.subNR ≤ size.messageNR :=
    calc q % kBatchCount * size.subNR + size.subNR
        = (q % kBatchCount + 1) * size.subNR := (Nat.succ_mul _ _).symm
      _ ≤ kBatchCount * size.subNR := Nat.mul_le_mul_right _ hlast
      _ = size.messageNR := by rw [size.messageNR_eq, Nat.mul_comm]
  have hslot : q * size.subNR % size.messageNR =
      q % kBatchCount * size.subNR % size.messageNR := by
    rw [size.messageNR_eq, Nat.mul_comm size.subNR, Nat.mul_mod_mul_right, Nat.mul_mod_mul_right,
      Nat.mod_mod]
  rw [Ring.window_congr hslot, Ring.window_eq_range hroom]
  rfl

structure Inv (size : Size) (r : Receiver α) : Prop where
  cur : r.curMessage = r.taken.length % size.messageNR
  taken_le : r.taken.length ≤ r.received.length
  received_le : r.received.length ≤ r.posts.length
  rounds : r.posts = Ring.window size.messageNR 0 r.posts.length
  batches : r.posts.length = size.messageNR + r.taken.length / size.subNR * size.subNR
  posted : r.posted =
    Ring.window size.messageNR r.received.length (r.posts.length - r.received.length)
  /-- A message stays where it is for the next round. -/
  pool : ∀ j, (hj : j < r.received.length) → r.received.length ≤ j + size.messageNR →
    r.pool (j % size.messageNR) = some r.received[j]
  inOrder : r.InOrder

theorem Inv.room (h : Inv size r) : r.posts.length ≤ r.taken.length + size.messageNR := by
  rw [h.batches]
  have hread := Nat.div_mul_le_self r.taken.length size.subNR
  omega

theorem Inv.postsOnce (h : Inv size r) : r.PostsOnce size where
  rounds := h.rounds
  batches := h.batches
  apart := by
    rw [h.posted]
    have hroom := h.room
    have hle := h.taken_le
    exact Ring.window_nodup (by omega)

/-- The first `n` batches that `initRecv` posts. -/
theorem initRecv_loop (size : Size) (n : Nat) (hn : n ≤ kBatchCount) :
    (List.range n).foldl (postRecv size) (unposted : Receiver α) =
      { (unposted : Receiver α) with
        posted := Ring.window size.messageNR 0 (n * size.subNR)
        posts := Ring.window size.messageNR 0 (n * size.subNR) } := by
  induction n with
  | zero =>
      rw [Nat.zero_mul]
      rfl
  | succ n ih =>
      have hbatch := recvs_eq size n
      rw [Nat.mod_eq_of_lt hn] at hbatch
      have hnext : Ring.window size.messageNR 0 (n * size.subNR) ++
          Ring.window size.messageNR (0 + n * size.subNR) size.subNR =
            Ring.window size.messageNR 0 (n * size.subNR + size.subNR) := Ring.window_append
      rw [Nat.zero_add] at hnext
      rw [List.range_succ, List.foldl_append, ih (Nat.le_of_succ_le hn), List.foldl_cons,
        List.foldl_nil, postRecv, hbatch, Nat.succ_mul, ← hnext]

theorem inv_initRecv (size : Size) : Inv size (initRecv size : Receiver α) := by
  have hall := size.messageNR_eq
  unfold initRecv
  rw [initRecv_loop size kBatchCount (Nat.le_refl _), Nat.mul_comm, ← hall]
  refine ⟨(Nat.zero_mod _).symm, Nat.le_refl 0, Nat.zero_le _, ?_, ?_, ?_, ?_, rfl⟩
  · rw [Ring.length_window]
  · show (Ring.window size.messageNR 0 size.messageNR).length =
      size.messageNR + 0 / size.subNR * size.subNR
    rw [Ring.length_window, Nat.zero_div, Nat.zero_mul, Nat.add_zero]
  · show Ring.window size.messageNR 0 size.messageNR = Ring.window size.messageNR 0
      ((Ring.window size.messageNR 0 size.messageNR).length - 0)
    rw [Ring.length_window, Nat.sub_zero]
  · intro j hj
    exact absurd hj (Nat.not_lt_zero j)

theorem Inv.receive (h : Inv size r) {m : α} (hstep : r.receive m = some r') : Inv size r' := by
  unfold Receiver.receive at hstep
  have hroom := h.room
  have hposted := h.posted
  split at hstep
  · cases hstep
  · rename_i slot posted hslot
    obtain ⟨len, hlen⟩ : ∃ len, r.posts.length - r.received.length = len + 1 := by
      refine Nat.exists_eq_succ_of_ne_zero fun hzero => ?_
      rw [hzero, Ring.window_zero, hslot] at hposted
      cases hposted
    rw [hlen, Ring.window_succ, hslot] at hposted
    obtain ⟨hslot, hposted⟩ := List.cons.inj hposted
    cases hstep
    have hlast : (r.received ++ [m]).length = r.received.length + 1 := List.length_append
    refine ⟨h.cur, ?_, ?_, h.rounds, h.batches, ?_, ?_, ?_⟩
    · show r.taken.length ≤ (r.received ++ [m]).length
      have hle := h.taken_le
      omega
    · show (r.received ++ [m]).length ≤ r.posts.length
      omega
    · show posted = Ring.window size.messageNR (r.received ++ [m]).length
        (r.posts.length - (r.received ++ [m]).length)
      rw [hposted, hlast, show r.posts.length - (r.received.length + 1) = len by omega]
    · intro j hj hfresh
      show Function.update r.pool slot (some m) (j % size.messageNR) = _
      have hj : j < (r.received ++ [m]).length := hj
      have hfresh : (r.received ++ [m]).length ≤ j + size.messageNR := hfresh
      by_cases hnew : j = r.received.length
      · subst hnew
        rw [hslot, Function.update_self]
        simp
      · have hold : j < r.received.length := by omega
        have hother : j % size.messageNR ≠ slot := by
          intro heq
          rw [hslot] at heq
          exact hnew (Ring.eq_of_mod_eq (Nat.le_of_lt hold) (by omega) heq)
        rw [Function.update_of_ne hother, h.pool j hold (by omega)]
        simp [List.getElem_append_left hold]
    · show r.taken = ((r.received ++ [m]).take r.taken.length).map some
      rw [List.take_append_of_le_length h.taken_le]
      exact h.inOrder

/-- The batch index that `getMessage` computes after `t` batches. -/
theorem batch_index {t : Nat} (ht : 0 < t) :
    ((t % kBatchCount + (2 ^ 32 - 1)) % 2 ^ 32 + kBatchCount) % 2 ^ 32 % kBatchCount =
      (t - 1) % kBatchCount := by
  unfold kBatchCount
  omega

/-- The buffer that is returned has the next message. -/
theorem Inv.next (h : Inv size r) (hlt : r.taken.length < r.received.length) :
    r.pool r.curMessage = some r.received[r.taken.length] := by
  have hroom := h.room
  have hle := h.received_le
  rw [h.cur]
  exact h.pool _ hlt (by omega)

theorem inOrder_succ (h : r.InOrder) (hlt : r.taken.length < r.received.length) :
    r.taken ++ [some r.received[r.taken.length]] =
      (r.received.take (r.taken.length + 1)).map some := by
  rw [List.take_succ_eq_append_getElem hlt, List.map_append, ← h]
  rfl

/-- A batch was read to its end: it is posted again. -/
theorem Inv.repost (h : Inv size r) {t : Nat} (hend : r.taken.length + 1 = t * size.subNR) :
    recvs size ((t - 1) % kBatchCount) =
      Ring.window size.messageNR r.posts.length size.subNR ∧
    r.posts.length + size.subNR = size.messageNR + t * size.subNR := by
  have hpos := size.subNR_pos
  have ht : 0 < t := Nat.pos_of_ne_zero fun hzero => by
    rw [hzero, Nat.zero_mul] at hend
    omega
  have hread : r.taken.length / size.subNR = t - 1 := by
    refine Nat.div_eq_of_lt_le ?_ ?_
    · rw [Nat.sub_one_mul]
      omega
    · rw [show t - 1 + 1 = t by omega]
      omega
  have hposts := h.batches
  rw [hread] at hposts
  constructor
  · rw [recvs_eq, hposts]
    refine Ring.window_congr ?_
    rw [Nat.add_mod_left]
  · rw [hposts, Nat.sub_one_mul]
    have hle : size.subNR ≤ t * size.subNR := Nat.le_mul_of_pos_left _ ht
    omega

/-- The message was read, and the next `n` slots were posted. -/
theorem Inv.read (h : Inv size r) (hlt : r.taken.length < r.received.length) {n : Nat}
    (hlen : r.posts.length + n =
      size.messageNR + (r.taken.length + 1) / size.subNR * size.subNR) :
    Inv size { r with
      curMessage := (r.taken.length + 1) % size.messageNR
      taken := r.taken ++ [r.pool r.curMessage]
      posted := r.posted ++ Ring.window size.messageNR r.posts.length n
      posts := r.posts ++ Ring.window size.messageNR r.posts.length n } := by
  have htaken : (r.taken ++ [r.pool r.curMessage]).length = r.taken.length + 1 := List.length_append
  have hposts : (r.posts ++ Ring.window size.messageNR r.posts.length n).length =
      r.posts.length + n := by rw [List.length_append, Ring.length_window]
  have hle := h.received_le
  constructor
  · show (r.taken.length + 1) % size.messageNR = (r.taken ++ _).length % size.messageNR
    rw [htaken]
  · show (r.taken ++ _).length ≤ r.received.length
    rw [htaken]
    exact hlt
  · show r.received.length ≤ (r.posts ++ _).length
    rw [hposts]
    exact Nat.le_add_right_of_le hle
  · show r.posts ++ Ring.window size.messageNR r.posts.length n =
      Ring.window size.messageNR 0 (r.posts ++ _).length
    have hall : Ring.window size.messageNR 0 r.posts.length ++
        Ring.window size.messageNR (0 + r.posts.length) n =
          Ring.window size.messageNR 0 (r.posts.length + n) := Ring.window_append
    rw [hposts, ← hall, ← h.rounds, Nat.zero_add]
  · show (r.posts ++ _).length = size.messageNR + (r.taken ++ _).length / size.subNR * size.subNR
    rw [hposts, htaken, hlen]
  · show r.posted ++ Ring.window size.messageNR r.posts.length n =
      Ring.window size.messageNR r.received.length ((r.posts ++ _).length - r.received.length)
    have hall : Ring.window size.messageNR r.received.length (r.posts.length - r.received.length) ++
        Ring.window size.messageNR (r.received.length + (r.posts.length - r.received.length)) n =
          Ring.window size.messageNR r.received.length
            (r.posts.length - r.received.length + n) := Ring.window_append
    rw [Nat.add_sub_cancel' hle, ← h.posted] at hall
    rw [hposts, hall, Nat.sub_add_comm hle]
  · exact h.pool
  · show r.taken ++ [r.pool r.curMessage] = (r.received.take (r.taken ++ _).length).map some
    rw [htaken, h.next hlt]
    exact inOrder_succ h.inOrder hlt

theorem Inv.getMessage (h : Inv size r) (hstep : r.getMessage size = some r') : Inv size r' := by
  unfold Receiver.getMessage at hstep
  split at hstep
  · rename_i hlt
    have hpos := size.subNR_pos
    have hdvd : size.subNR ∣ size.messageNR := ⟨_, size.messageNR_eq⟩
    have hcur : (r.curMessage + 1) % size.messageNR = (r.taken.length + 1) % size.messageNR := by
      rw [h.cur, Nat.mod_add_mod]
    simp only [hcur, Nat.mod_mod_of_dvd _ hdvd] at hstep
    split at hstep
    · rename_i hend
      obtain ⟨t, ht⟩ := Nat.dvd_of_mod_eq_zero hend
      rw [Nat.mul_comm] at ht
      obtain ⟨hbatch, hlen⟩ := h.repost ht
      have hquot : (r.taken.length + 1) % size.messageNR / size.subNR = t % kBatchCount := by
        rw [ht, size.messageNR_eq, Nat.mul_comm t, Nat.mul_mod_mul_left,
          Nat.mul_div_cancel_left _ hpos]
      have htpos : 0 < t := Nat.pos_of_ne_zero fun hzero => by
        rw [hzero, Nat.zero_mul] at ht
        omega
      rw [hquot, batch_index htpos, postRecv, hbatch] at hstep
      cases hstep
      refine h.read hlt ?_
      rw [hlen, ht, Nat.mul_div_cancel _ hpos]
    · rename_i hend
      cases hstep
      have hsame : (r.taken.length + 1) / size.subNR = r.taken.length / size.subNR := by
        rw [Nat.succ_div, if_neg fun hdvd => hend (Nat.mod_eq_zero_of_dvd hdvd), Nat.add_zero]
      have hread := h.read (n := 0) hlt (by rw [hsame]; exact h.batches)
      rw [Ring.window_zero, List.append_nil, List.append_nil] at hread
      exact hread
  · cases hstep

end Receiver

/-! ### Sending -/

/-- How many completions the first `n` sends poll: one for each multiple of 32 among them, but
for those at which the counter is 0. -/
def polls (n : Nat) : Nat := (n - 1) / 32 - (n - 1) / 2 ^ 64

/-- How many sends are known to be complete after the first `n`. -/
def knownAfter (n : Nat) : Nat := if polls n = 0 then 0 else 32 * (polls n - 1) + 1

theorem polls_le (n : Nat) : polls n ≤ n / 32 := by
  unfold polls
  omega

theorem polls_succ {n : Nat} (h : n % 32 = 0) (hcounter : 0 < n % 2 ^ 64) :
    polls (n + 1) = polls n + 1 := by
  unfold polls
  omega

theorem polls_same {n : Nat} (h : ¬ (n % 32 = 0 ∧ 0 < n % 2 ^ 64)) : polls (n + 1) = polls n := by
  unfold polls
  omega

namespace Sender

variable {size : Size} {s s' : Sender}

/-- The signalled sends that were not polled, in their order. -/
def signals (s : Sender) : List Nat := s.sendCq ++ (s.inFlight.filter (·.2)).map (·.1)

structure Inv (size : Size) (s : Sender) : Prop where
  counter : s.sendCounter = s.sends % 2 ^ 64
  cur : s.curSend = s.handedOut.length % size.messageNR
  holding : s.handedOut.length = s.sends + if s.holding.isSome then 1 else 0
  known : s.known = knownAfter s.sends
  signals : s.signals =
    (List.range' (polls s.sends) ((s.sends + 31) / 32 - polls s.sends)).map (32 * ·)
  log : s.handedOut =
    (List.range s.handedOut.length).map fun j => (j % size.messageNR, knownAfter j)

theorem inv_init (size : Size) : Inv size init where
  counter := rfl
  cur := (Nat.zero_mod _).symm
  holding := rfl
  known := rfl
  signals := rfl
  log := rfl

theorem Inv.getSendPool (h : Inv size s) (hstep : s.getSendPool size = some s') : Inv size s' := by
  unfold Sender.getSendPool at hstep
  split at hstep
  · cases hstep
  · rename_i hnone
    have hlen : s.handedOut.length = s.sends := by
      rw [h.holding, hnone]
      rfl
    have hnext : (s.handedOut ++ [(s.curSend, s.known)]).length = s.handedOut.length + 1 :=
      List.length_append
    cases hstep
    refine ⟨h.counter, ?_, ?_, h.known, h.signals, ?_⟩
    · show (s.curSend + 1) % size.messageNR = (s.handedOut ++ _).length % size.messageNR
      rw [hnext, h.cur, Nat.mod_add_mod]
    · show (s.handedOut ++ _).length = s.sends + 1
      rw [hnext, hlen]
    · show s.handedOut ++ [(s.curSend, s.known)] = (List.range (s.handedOut ++ _).length).map _
      rw [hnext, List.range_succ, List.map_append, ← h.log, h.cur, h.known, hlen]
      rfl

theorem Inv.complete (h : Inv size s) (hstep : s.complete = some s') : Inv size s' := by
  unfold Sender.complete at hstep
  split at hstep
  · cases hstep
  · rename_i number signalled inFlight hflight
    cases hstep
    refine ⟨h.counter, h.cur, h.holding, h.known, ?_, h.log⟩
    rw [← h.signals]
    unfold Sender.signals
    rw [hflight]
    cases signalled with
    | true => exact List.append_assoc ..
    | false => rfl

theorem and_signal_batch (hcounter : s.sendCounter = s.sends % 2 ^ 64) :
    s.sendCounter &&& SIGNAL_BATCH = s.sends % 32 := by
  rw [hcounter, show SIGNAL_BATCH = 2 ^ 5 - 1 from rfl, Nat.and_two_pow_sub_one_eq_mod]
  omega

/-- What the send itself adds to the signals. -/
theorem signals_rdmaSend (hcounter : s.sendCounter = s.sends % 2 ^ 64) : s.rdmaSend.signals =
    s.signals ++ if s.sends % 32 = 0 then [s.sends] else [] := by
  unfold rdmaSend Sender.signals
  rw [and_signal_batch hcounter, List.filter_append, List.map_append, ← List.append_assoc]
  congr 1
  by_cases hsignal : s.sends % 32 = 0
  · rw [if_pos hsignal]
    simp [hsignal]
  · rw [if_neg hsignal]
    simp [hsignal]

/-- The send itself, when the completions it needs were polled. -/
theorem inv_rdmaSend (hcounter : s.sendCounter = s.sends % 2 ^ 64)
    (hcur : s.curSend = s.handedOut.length % size.messageNR)
    (hlen : s.handedOut.length = s.sends + 1) (hknown : s.known = knownAfter (s.sends + 1))
    (hsignals : s.signals = (List.range' (polls (s.sends + 1))
      ((s.sends + 31) / 32 - polls (s.sends + 1))).map (32 * ·))
    (hlog : s.handedOut =
      (List.range s.handedOut.length).map fun j => (j % size.messageNR, knownAfter j)) :
    Inv size s.rdmaSend := by
  refine ⟨?_, hcur, hlen, hknown, ?_, hlog⟩
  · show (s.sendCounter + 1) % 2 ^ 64 = (s.sends + 1) % 2 ^ 64
    rw [hcounter, Nat.mod_add_mod]
  · rw [signals_rdmaSend hcounter, hsignals]
    show _ = (List.range' (polls (s.sends + 1))
      ((s.sends + 1 + 31) / 32 - polls (s.sends + 1))).map (32 * ·)
    have hle : polls (s.sends + 1) ≤ s.sends / 32 := by
      unfold polls
      omega
    by_cases hsignal : s.sends % 32 = 0
    · rw [if_pos hsignal, show (s.sends + 1 + 31) / 32 - polls (s.sends + 1) =
        (s.sends + 31) / 32 - polls (s.sends + 1) + 1 by omega, List.range'_concat, List.map_append,
        List.map_singleton]
      congr 2
      omega
    · rw [if_neg hsignal, List.append_nil, show (s.sends + 1 + 31) / 32 = (s.sends + 31) / 32 by omega]

/-- The completion that a send polls is that of the oldest signal. -/
theorem Inv.pollWithCQ (h : Inv size s) (hpolls : s.sends % 32 = 0)
    (hcounter : 0 < s.sends % 2 ^ 64) (hstep : s.pollWithCQ = some s') :
    ∃ sendCq, s' = { s with sendCq := sendCq, known := knownAfter (s.sends + 1) } ∧
      s'.signals = (List.range' (polls (s.sends + 1))
        ((s.sends + 31) / 32 - polls (s.sends + 1))).map (32 * ·) := by
  unfold Sender.pollWithCQ at hstep
  split at hstep
  · cases hstep
  · rename_i number sendCq hcq
    have hnext := polls_succ hpolls hcounter
    have hle := polls_le s.sends
    obtain ⟨len, hlen⟩ : ∃ len, (s.sends + 31) / 32 - polls s.sends = len + 1 :=
      ⟨(s.sends + 31) / 32 - polls s.sends - 1, by unfold polls at *; omega⟩
    have hsignals := h.signals
    unfold Sender.signals at hsignals
    rw [hcq, hlen, List.range'_succ, List.map_cons, List.cons_append] at hsignals
    obtain ⟨hnumber, hrest⟩ := List.cons.inj hsignals
    cases hstep
    refine ⟨sendCq, ?_, ?_⟩
    · rw [hnumber, knownAfter, hnext]
      simp
    · rw [hnext, show (s.sends + 31) / 32 - (polls s.sends + 1) = len by omega]
      exact hrest

theorem Inv.sendRawMessage (h : Inv size s) (hstep : s.sendRawMessage = some s') :
    Inv size s' := by
  unfold Sender.sendRawMessage at hstep
  have hbatch := and_signal_batch h.counter
  split at hstep
  · cases hstep
  · rename_i slot hholding
    have hlen : s.handedOut.length = s.sends + 1 := by
      rw [h.holding, hholding]
      rfl
    split at hstep
    · rename_i hpolls
      unfold Polls at hpolls
      rw [hbatch, h.counter] at hpolls
      obtain ⟨t, hpoll, hsend⟩ := Option.map_eq_some_iff.mp hstep
      obtain ⟨sendCq, rfl, hsignals⟩ := h.pollWithCQ hpolls.1 hpolls.2 hpoll
      rw [← hsend]
      exact inv_rdmaSend h.counter h.cur hlen rfl hsignals h.log
    · rename_i hpolls
      unfold Polls at hpolls
      rw [hbatch, h.counter] at hpolls
      have hsame := polls_same hpolls
      cases hstep
      refine inv_rdmaSend h.counter h.cur hlen ?_ ?_ h.log
      · rw [h.known, knownAfter, knownAfter, hsame]
      · rw [hsame]
        exact h.signals

/-- How far the send pool can be used: the calls of `getSendPool` before the lag of the polls
has grown to the size of the pool. -/
def bound (size : Size) : Nat := (size.messageNR / 32 - 1) * 2 ^ 64 + size.messageNR % 32 + 1

/-- What was known when a slot came up again, against the send before in that slot. -/
theorem known_iff (size : Size) {j : Nat} (hj : size.messageNR ≤ j) :
    j - size.messageNR < knownAfter j ↔
      33 + (j - 1) % 32 + 32 * ((j - 1) / 2 ^ 64) ≤ size.messageNR := by
  have hleast := size.least
  have hpolls : polls j ≠ 0 := by
    unfold polls
    omega
  rw [knownAfter, if_neg hpolls]
  unfold polls at hpolls ⊢
  omega

theorem Inv.handedOut_getElem (h : Inv size s) {j : Nat} (hj : j < s.handedOut.length) :
    s.handedOut[j] = (j % size.messageNR, knownAfter j) := by
  rw [List.getElem_of_eq h.log hj, List.getElem_map, List.getElem_range]

/-- Every slot was free when it was handed out, up to the bound and no further. -/
theorem Inv.fresh_iff (h : Inv size s) : s.Fresh ↔ s.handedOut.length ≤ bound size := by
  have hleast := size.least
  have hshort := size.short
  constructor
  · intro hfresh
    refine Nat.le_of_not_lt fun hlong => ?_
    have hround : size.messageNR ≤ bound size := by
      unfold bound
      omega
    have hslot : s.handedOut[bound size - size.messageNR].1 = s.handedOut[bound size].1 := by
      rw [h.handedOut_getElem, h.handedOut_getElem]
      exact (Nat.mod_eq_sub_mod hround).symm
    have hknown := hfresh (bound size - size.messageNR) (bound size) hlong (by omega) hslot
    rw [h.handedOut_getElem] at hknown
    have hlag := (known_iff size hround).mp hknown
    unfold bound at hlag
    omega
  · intro hle i j hj hij hslot
    rw [h.handedOut_getElem, h.handedOut_getElem] at hslot
    rw [h.handedOut_getElem]
    have hslot : i % size.messageNR = j % size.messageNR := hslot
    have hround : i + size.messageNR ≤ j := by
      refine Nat.le_of_not_lt fun hlt => ?_
      exact absurd (Ring.eq_of_mod_eq (Nat.le_of_lt hij) (by omega) hslot) (Nat.ne_of_lt hij)
    have hlag : 33 + (j - 1) % 32 + 32 * ((j - 1) / 2 ^ 64) ≤ size.messageNR := by
      unfold bound at hle
      omega
    have hknown := (known_iff size (by omega)).mpr hlag
    show i < knownAfter j
    omega

end Sender

/-! ### Both rings -/

theorem step_inv {size : Size} {c c' : Connection α} {a : Action α}
    (hr : c.receiver.Inv size) (hs : c.sender.Inv size) (hstep : step size c a = some c') :
    c'.receiver.Inv size ∧ c'.sender.Inv size := by
  cases a with
  | receive m =>
      obtain ⟨r, hreceive, rfl⟩ := Option.map_eq_some_iff.mp hstep
      exact ⟨hr.receive hreceive, hs⟩
  | getMessage =>
      obtain ⟨r, hget, rfl⟩ := Option.map_eq_some_iff.mp hstep
      exact ⟨hr.getMessage hget, hs⟩
  | getSendPool =>
      obtain ⟨s, hget, rfl⟩ := Option.map_eq_some_iff.mp hstep
      exact ⟨hr, hs.getSendPool hget⟩
  | sendRawMessage =>
      obtain ⟨s, hsend, rfl⟩ := Option.map_eq_some_iff.mp hstep
      exact ⟨hr, hs.sendRawMessage hsend⟩
  | complete =>
      obtain ⟨s, hcomplete, rfl⟩ := Option.map_eq_some_iff.mp hstep
      exact ⟨hr, hs.complete hcomplete⟩

theorem reachable_inv {size : Size} {c : Connection α} (h : (machine α size).Reachable c) :
    c.receiver.Inv size ∧ c.sender.Inv size := by
  refine h.invariant (I := fun c => c.receiver.Inv size ∧ c.sender.Inv size) ?_ ?_
  · intro c hinit
    rw [show c = ⟨Receiver.initRecv size, Sender.init⟩ from hinit]
    exact ⟨Receiver.inv_initRecv size, Sender.inv_init size⟩
  · intro c a c' hc _ hstep
    exact step_inv hc.1 hc.2 hstep

/-- In every run the messages are read in their order and the receives posted once a round. -/
theorem receive_ring {size : Size} {c : Connection α} (h : (machine α size).Reachable c) :
    c.receiver.InOrder ∧ c.receiver.PostsOnce size := by
  have hr := (reachable_inv h).1
  exact ⟨hr.inOrder, hr.postsOnce⟩

/-- And a slot of the send pool is free when it is handed out exactly up to the bound. -/
theorem message_rings {size : Size} {c : Connection α} (h : (machine α size).Reachable c) :
    Correct size c ↔ c.sender.handedOut.length ≤ Sender.bound size := by
  have hs := (reachable_inv h).2
  obtain ⟨hinOrder, hpostsOnce⟩ := receive_ring h
  constructor
  · intro hcorrect
    exact hs.fresh_iff.mp hcorrect.fresh
  · intro hle
    exact ⟨hinOrder, hpostsOnce, hs.fresh_iff.mpr hle⟩

/-- The size of the pools of an application thread, `APP_MESSAGE_NR`. -/
def appMessageNR : Size := ⟨96, by decide, by decide, by decide⟩

theorem message_rings_first : ∃ c : Connection Nat,
    (machine Nat appMessageNR).exec ⟨Receiver.initRecv appMessageNR, Sender.init⟩
      [.receive 7, .getMessage, .getSendPool, .sendRawMessage, .complete] = some c ∧
    Correct appMessageNR c := by
  refine ⟨_, rfl, ?_⟩
  refine (message_rings ?_).mpr (by decide)
  exact ⟨_, rfl, System.path_of_exec [.receive 7, .getMessage, .getSendPool, .sendRawMessage,
    .complete] rfl⟩

/-! ### Past the bound -/

/-- A sender with nothing under way. -/
structure Sender.AtRest (s : Sender) : Prop where
  holding : s.holding = none
  inFlight : s.inFlight = []

/-- There is a completion for the send that polls. -/
theorem Sender.Inv.can_poll {size : Size} {s : Sender} (h : s.Inv size) (hrest : s.inFlight = [])
    (hpolls : s.Polls) :
    ∃ t, s.pollWithCQ = some t ∧ t.inFlight = [] ∧ t.handedOut = s.handedOut := by
  unfold Sender.Polls at hpolls
  rw [Sender.and_signal_batch h.counter, h.counter] at hpolls
  have hsignals := h.signals
  unfold Sender.signals at hsignals
  rw [hrest, List.filter_nil, List.map_nil, List.append_nil] at hsignals
  have hlen := congrArg List.length hsignals
  rw [List.length_map, List.length_range'] at hlen
  unfold Sender.pollWithCQ
  cases hcq : s.sendCq with
  | nil =>
      rw [hcq] at hlen
      unfold polls at hlen
      have hlen : 0 = (s.sends + 31) / 32 - ((s.sends - 1) / 32 - (s.sends - 1) / 2 ^ 64) := hlen
      omega
  | cons number sendCq => exact ⟨_, rfl, hrest, rfl⟩

theorem Sender.Inv.can_send {size : Size} {s : Sender} {slot : Nat} (h : s.Inv size)
    (hrest : s.inFlight = []) (hholding : s.holding = some slot) :
    ∃ t : Sender, s.sendRawMessage = some t.rdmaSend ∧ t.inFlight = [] ∧ t.handedOut = s.handedOut := by
  unfold Sender.sendRawMessage
  rw [hholding]
  by_cases hpolls : s.Polls
  · obtain ⟨t, hpoll, ht, hhanded⟩ := h.can_poll hrest hpolls
    refine ⟨t, ?_, ht, hhanded⟩
    show (if s.Polls then s.pollWithCQ.map Sender.rdmaSend else some s.rdmaSend) = _
    rw [if_pos hpolls, hpoll]
    rfl
  · refine ⟨s, ?_, hrest, rfl⟩
    show (if s.Polls then s.pollWithCQ.map Sender.rdmaSend else some s.rdmaSend) = _
    rw [if_neg hpolls]

/-- The NIC completes the only send. -/
theorem Sender.complete_rdmaSend {t : Sender} (hrest : t.inFlight = []) :
    ∃ s, t.rdmaSend.complete = some s ∧ s.AtRest ∧ s.handedOut = t.handedOut := by
  have hflight : t.rdmaSend.inFlight =
      [(t.sends, decide (t.sendCounter &&& SIGNAL_BATCH = 0))] := by
    unfold Sender.rdmaSend
    rw [hrest, List.nil_append]
  unfold Sender.complete
  rw [hflight]
  exact ⟨_, rfl, ⟨rfl, rfl⟩, rfl⟩

/-- One slot more is handed out, sent and completed. -/
theorem run_slot {size : Size} {c : Connection α} (h : (machine α size).Reachable c)
    (hrest : c.sender.AtRest) : ∃ c', (machine α size).Reachable c' ∧ c'.sender.AtRest ∧
      c'.sender.handedOut.length = c.sender.handedOut.length + 1 := by
  have hget : c.sender.getSendPool size = some { c.sender with
      curSend := (c.sender.curSend + 1) % size.messageNR, holding := some c.sender.curSend
      handedOut := c.sender.handedOut ++ [(c.sender.curSend, c.sender.known)] } := by
    unfold Sender.getSendPool
    rw [hrest.holding]
  have hreach := h.tail .getSendPool trivial (show step size c .getSendPool = _ by
    rw [step, hget]
    rfl)
  obtain ⟨t, hsend, ht, hhanded⟩ := (reachable_inv hreach).2.can_send hrest.inFlight rfl
  have hreach' := hreach.tail .sendRawMessage trivial (show step size _ .sendRawMessage = _ by
    rw [step, hsend]
    rfl)
  obtain ⟨s, hcomplete, hrest', hhanded'⟩ := Sender.complete_rdmaSend ht
  have hreach'' := hreach'.tail .complete trivial (show step size _ .complete = _ by
    rw [step, hcomplete]
    rfl)
  refine ⟨_, hreach'', hrest', ?_⟩
  show s.handedOut.length = c.sender.handedOut.length + 1
  rw [hhanded', hhanded]
  exact List.length_append

theorem run_long (size : Size) (n : Nat) : ∃ c : Connection α, (machine α size).Reachable c ∧
    c.sender.AtRest ∧ c.sender.handedOut.length = n := by
  induction n with
  | zero => exact ⟨_, ⟨_, rfl, System.Path.refl⟩, ⟨rfl, rfl⟩, rfl⟩
  | succ n ih =>
      obtain ⟨c, hreach, hrest, hlen⟩ := ih
      obtain ⟨c', hreach', hrest', hlen'⟩ := run_slot hreach hrest
      exact ⟨c', hreach', hrest', by rw [hlen', hlen]⟩

/-- A thread that sends more than `2 ^ 65` messages gets a slot whose send is not known to be
complete. -/
theorem message_rings_wrapped : ∃ c : Connection Nat,
    (machine Nat appMessageNR).Reachable c ∧ ¬ Correct appMessageNR c := by
  obtain ⟨c, hreach, -, hlen⟩ := run_long (α := Nat) appMessageNR (2 ^ 65 + 2)
  refine ⟨c, hreach, fun hcorrect => ?_⟩
  have hle := (reachable_inv hreach).2.fresh_iff.mp hcorrect.fresh
  rw [hlen] at hle
  exact absurd hle (by decide)

end Dal.Message
