/-
Nobody waits for an MCS lock for ever.

A run is fair if every thread that can go on does so at some time and every thread that has the
lock unlocks at some time.  The kernel need not let anybody go for nothing, and a parked thread
does not go on by itself.

The rank of a waiting thread is its place in the queue and, for the thread at the front, how much
that one still has to do.  At every moment one thread can lower it, and no step raises it: the
thread at the front, or the one that has yet to call the kernel for it, or the one that has yet to
link itself in behind it.
-/
import Dal.Lib.Endless
import Dal.Lock.Mcs

namespace Dal.Mcs

variable {Thread : Type*} [DecidableEq Thread]

/-! ### What a step does to whom -/

/-- The action is the thread's own. -/
def Action.Of (a : Action Thread) (t : Thread) : Prop :=
  a = .lock t ∨ a = .trylock t ∨ a = .unlock t ∨ a = .run t ∨ ∃ eintr, a = .letGo t eintr

section Effect

variable {policy : Policy} {s s' : State Thread} {a : Action Thread} {t u x : Thread}

/-- Another thread's step leaves the counter alone, unless it wakes the thread. -/
theorem run_pc (hstep : runThread policy s t = some s') (hx : x ≠ t) :
    s'.pc x = s.pc x ∨ s.pc x = .parked ∧ s'.pc x = .woken := by
  unfold runThread at hstep
  split at hstep
  all_goals cases policy <;> grind [sleepOnce, wakeNext]

theorem step_pc (hstep : step policy s a = some s') (hx : ¬ a.Of x) :
    s'.pc x = s.pc x ∨ s.pc x = .parked ∧ s'.pc x = .woken := by
  cases a with
  | run t => exact run_pc hstep fun heq => hx (heq ▸ Or.inr (Or.inr (Or.inr (Or.inl rfl))))
  | _ =>
      unfold step at hstep
      grind [Action.Of]

theorem step_next (hstep : step policy s a = some s') (hx : ¬ a.Of x) :
    s'.next x = s.next x ∨ s'.next x ≠ none := by
  unfold step at hstep
  cases a with
  | run t =>
      unfold runThread at hstep
      split at hstep
      all_goals cases policy <;> grind [sleepOnce, wakeNext]
  | _ => grind [Action.Of]

theorem step_counts (hstep : step policy s a = some s') :
    (s'.arrived = s.arrived ∧ s'.released = s.released) ∨
    (∃ x, s'.arrived = s.arrived ++ [x] ∧ s'.released = s.released) ∨
    ∃ x, a = .run x ∧ (s.pc x = .cas ∨ s.pc x = .wake) ∧ s'.arrived = s.arrived ∧
      s'.released = s.released + 1 := by
  unfold step at hstep
  cases a with
  | run t =>
      unfold runThread at hstep
      split at hstep
      all_goals cases policy <;> grind [sleepOnce, wakeNext]
  | _ => grind

/-- A waiting thread whose turn it is not stays a waiting thread. -/
theorem own_waits (hstep : step policy s a = some s') (hof : a.Of t)
    (hw : (s.pc t).waits = true) (hspin : s.spin t = false) : (s'.pc t).waits = true := by
  unfold Action.Of at hof
  rcases hof with rfl | rfl | rfl | rfl | ⟨eintr, rfl⟩
  case inr.inr.inr.inl =>
    change runThread policy s t = some s' at hstep
    unfold runThread at hstep
    split at hstep
    all_goals cases policy <;> grind [sleepOnce, wakeNext, Pc.waits, Policy.sleep]
  all_goals
    unfold step at hstep
    grind [Pc.waits]

end Effect

/-! ### The rank of a waiting thread -/

/-- How much a thread at the front of the queue has left. -/
def Pc.stage : Pc Thread → Nat
  | .parked => 10
  | .futex => 9
  | .spinning _ => 8
  | .check | .woken => 7
  | .holding => 6
  | .cas => 5
  | .waitNext => 3
  | .wake => 2
  | _ => 0

/-- The same, with whether it has to wait for `next`. -/
def State.stage (s : State Thread) (u : Thread) : Nat :=
  (s.pc u).stage + if s.pc u = .waitNext ∧ s.next u = none then 1 else 0

/-- The place of the thread in the queue, and the stage of the thread at the front. -/
def rank (s : State Thread) (t : Thread) : Nat :=
  match s.queue with
  | [] => 0
  | u :: q => (u :: q).idxOf t * 11 + s.stage u

/-- The thread waits, with `u` at the front. -/
structure Waiting (s : State Thread) (t u : Thread) (b : Nat) : Prop where
  waits : (s.pc t).waits = true
  front : ∃ q, s.queue = u :: q
  rank : rank s t = b

/-- The thread has the lock, or is nearer to it. -/
def Nearer (t : Thread) (b : Nat) (s : State Thread) : Prop :=
  s.pc t = .holding ∨ (s.pc t).waits = true ∧ rank s t < b

section Rank

variable {policy : Policy} {s s' : State Thread} {a : Action Thread} {t u : Thread} {b : Nat}
  {q : List Thread}

theorem stage_le (s : State Thread) (u : Thread) : s.stage u ≤ 10 := by
  unfold State.stage
  cases s.pc u <;> simp [Pc.stage]
  split <;> omega

theorem rank_eq (hq : s.queue = u :: q) : Mcs.rank s t = (u :: q).idxOf t * 11 + s.stage u := by
  rw [Mcs.rank, hq]

/-- A step of another thread keeps the place, and the stage if it does not lower it. -/
theorem Waiting.other (h : Waiting s t u b) (hinv : Inv policy s s.queue)
    (hstep : step policy s a = some s') (hof : ¬ a.Of u) :
    (Waiting s' t u b ∧ s'.pc u = s.pc u ∧
      (s.pc u = .waitNext → (s'.next u = none ↔ s.next u = none))) ∨ Nearer t b s' := by
  obtain ⟨hw, ⟨q, hq⟩, hrank⟩ := h
  have htq : t ∈ u :: q := hq ▸ (hinv.mem t).mpr (Or.inl hw)
  have hpc := step_pc hstep hof
  have hnext := step_next hstep hof
  -- the place
  obtain ⟨q', hq', hidx⟩ : ∃ q', s'.queue = u :: q' ∧ (u :: q').idxOf t = (u :: q).idxOf t := by
    have hdrop : s.arrived.drop s.released = u :: q := hq
    rcases step_counts hstep with ⟨ha, hr⟩ | ⟨x, ha, hr⟩ | ⟨x, rfl, hx, -, -⟩
    · exact ⟨q, by rw [State.queue, ha, hr, hdrop], rfl⟩
    · refine ⟨q ++ [x], ?_, ?_⟩
      · rw [State.queue, ha, hr, List.drop_append_of_le_length hinv.counted, hdrop]
        rfl
      · rw [← List.cons_append, List.idxOf_append_of_mem htq]
    · have hfront := hinv.turn x (by rcases hx with hx | hx <;> rw [hx] <;> rfl)
      rw [hq] at hfront
      cases hfront
      exact absurd (Or.inr (Or.inr (Or.inr (Or.inl rfl)))) hof
  -- the thread still waits
  have hw' : (s'.pc t).waits = true := by
    by_cases htu : t = u
    · subst htu
      rcases hpc with hpc | ⟨-, hpc⟩ <;> rw [hpc]
      · exact hw
      · rfl
    · by_cases hoft : a.Of t
      · refine own_waits hstep hoft hw ?_
        have hspin := hinv.spin t hw
        rw [hq] at hspin
        exact Bool.eq_false_iff.mpr fun hs => htu (Option.some.inj (hspin.mp hs)).symm
      · rcases step_pc hstep hoft with hpc | ⟨-, hpc⟩ <;> rw [hpc]
        · exact hw
        · rfl
  have hrank' : Mcs.rank s' t = (u :: q).idxOf t * 11 + s'.stage u := by rw [rank_eq hq', hidx]
  rw [rank_eq hq] at hrank
  have hcase : (s'.stage u = s.stage u ∧ s'.pc u = s.pc u ∧
      (s.pc u = .waitNext → (s'.next u = none ↔ s.next u = none))) ∨ s'.stage u < s.stage u := by
    unfold State.stage
    grind [Pc.stage]
  rcases hcase with ⟨hstage, hpc', hnext'⟩ | hstage
  · exact Or.inl ⟨⟨hw', ⟨q', hq'⟩, by omega⟩, hpc', hnext'⟩
  · exact Or.inr (Or.inr ⟨hw', by omega⟩)

/-- What the thread at the front can do. -/
theorem front_step (hstep : step policy s a = some s') (hof : a.Of u)
    (hmem : (s.pc u).waits = true ∧ s.spin u = true ∨ (s.pc u).owns = true)
    (hlink : ∀ x, s.pc u ≠ .link x) :
    (s' = s ∧ s.pc u = .waitNext ∧ s.next u = none) ∨
    (s'.arrived = s.arrived ∧ s'.released = s.released ∧ s'.stage u < s.stage u ∧
      ((s.pc u).waits = true → (s'.pc u).waits = true ∨ s'.pc u = .holding)) ∨
    (s.pc u = .wake ∧ s'.arrived = s.arrived ∧ s'.released = s.released + 1) ∨
    (s.pc u = .cas ∧ s.tail = some u) ∨ s'.pc u = .failed := by
  unfold State.stage
  unfold Action.Of at hof
  rcases hof with rfl | rfl | rfl | rfl | ⟨eintr, rfl⟩
  case inr.inr.inr.inl =>
    change runThread policy s u = some s' at hstep
    unfold runThread at hstep
    split at hstep
    all_goals cases policy <;> grind [sleepOnce, wakeNext, Pc.waits, Pc.owns, Pc.stage]
  all_goals
    unfold step at hstep
    grind [Pc.waits, Pc.owns, Pc.stage]

/-- The first thread's own step takes the others nearer, unless it waits for `next`. -/
theorem Waiting.own (h : Waiting s t u b) (hinv : Inv policy s s.queue)
    (hstep : step policy s a = some s') (hof : a.Of u) :
    Nearer t b s' ∨ s' = s ∧ s.pc u = .waitNext ∧ s.next u = none := by
  obtain ⟨hw, ⟨q, hq⟩, hrank⟩ := h
  have htq : t ∈ u :: q := hq ▸ (hinv.mem t).mpr (Or.inl hw)
  have hfront : s.queue.head? = some u := by rw [hq]; rfl
  have hmem : (s.pc u).waits = true ∧ s.spin u = true ∨ (s.pc u).owns = true := by
    rcases (hinv.mem u).mp (hq ▸ List.mem_cons_self ..) with hu | hu
    · exact Or.inl ⟨hu, (hinv.spin u hu).mpr hfront⟩
    · exact Or.inr hu
  have hlink : ∀ x, s.pc u ≠ .link x := hinv.linked.first u hfront
  have hother : t ≠ u → (s'.pc t).waits = true := by
    intro htu
    have hoft : ¬ a.Of t := by
      unfold Action.Of at hof ⊢
      grind
    rcases step_pc hstep hoft with hpc | ⟨-, hpc⟩ <;> rw [hpc]
    · exact hw
    · rfl
  obtain ⟨q', hinv'⟩ := hinv.step hstep
  rw [rank_eq hq] at hrank
  rcases front_step hstep hof hmem hlink with hstay | ⟨ha, hr, hstage, hwaits⟩ | ⟨hpc, ha, hr⟩ |
    ⟨hpc, htail⟩ | hpc
  · exact Or.inr hstay
  · have hq' : s'.queue = u :: q := by
      rw [State.queue, ha, hr]
      exact hq
    have hless : Mcs.rank s' t < b := by
      rw [rank_eq hq']
      omega
    by_cases htu : t = u
    · subst htu
      rcases hwaits hw with hw' | hpc
      · exact Or.inl (Or.inr ⟨hw', hless⟩)
      · exact Or.inl (Or.inl hpc)
    · exact Or.inl (Or.inr ⟨hother htu, hless⟩)
  · -- the first thread leaves the queue
    have htu : t ≠ u := by
      rintro rfl
      rw [hpc] at hw
      cases hw
    have hq' : s'.queue = q := by
      have hdrop : s.arrived.drop s.released = u :: q := hq
      rw [State.queue, ha, hr, ← List.drop_drop, hdrop]
      rfl
    refine Or.inl (Or.inr ⟨hother htu, ?_⟩)
    rw [List.idxOf_cons_ne _ htu.symm] at hrank
    cases hcons : q with
    | nil =>
        rw [hcons] at htq
        exact absurd (List.mem_singleton.mp htq) htu
    | cons v q'' =>
        rw [hcons] at hq' hrank
        rw [rank_eq hq']
        have hle := stage_le s' v
        omega
  · -- it would leave a queue that has `t` in it
    have hlinked : WaitQueue s.next (Late s) (some u) (u :: q) := hq ▸ htail ▸ hinv.linked
    have htu : t = u := by
      rw [hlinked.alone] at htq
      exact List.mem_singleton.mp htq
    rw [htu, hpc] at hw
    cases hw
  · exact absurd hpc (hinv'.passed u)

end Rank

/-! ### Fair runs -/

/-- Whoever can go on does so at some time, and whoever has the lock unlocks. -/
structure Fair {policy : Policy} (r : (@machine Thread _ policy).Endless) : Prop where
  runs : ∀ t n, ∃ k, n ≤ k ∧ (r.action k = .run t ∨ (r.state k).pc t = .idle ∨
    (r.state k).pc t = .parked ∨ (r.state k).pc t = .holding)
  unlocks : ∀ t n, ∃ k, n ≤ k ∧ (r.action k = .unlock t ∨ (r.state k).pc t ≠ .holding)

/-- What a thread does next that is neither idle nor parked. -/
def Pc.act (w : Thread) : Pc Thread → Action Thread
  | .holding => .unlock w
  | _ => .run w

section Starvation

variable {policy : Policy} {s s' : State Thread} {a : Action Thread} {t u w : Thread} {b n : Nat}
  {r : (@machine Thread _ policy).Endless}

theorem only_act (hstep : step policy s a = some s') (hof : a.Of w) (hidle : s.pc w ≠ .idle)
    (hparked : s.pc w ≠ .parked) : a = (s.pc w).act w := by
  unfold Action.Of at hof
  unfold step at hstep
  rcases hof with rfl | rfl | rfl | rfl | ⟨eintr, rfl⟩
  case inr.inr.inr.inl =>
    change runThread policy s w = some s' at hstep
    unfold runThread at hstep
    split at hstep
    all_goals grind [Pc.act]
  all_goals grind [Pc.act]

/-- If the next thing that `w` does takes `t` nearer, `t` gets nearer. -/
theorem Fair.nearer (hfair : Fair r) (hwait : Waiting (r.state n) t u b)
    (hidle : (r.state n).pc w ≠ .idle) (hparked : (r.state n).pc w ≠ .parked)
    (hacts : ∀ k, Waiting (r.state k) t u b → (r.state k).pc u = (r.state n).pc u →
      (r.state k).pc w = (r.state n).pc w → ((r.state n).pc u = .waitNext →
        ((r.state k).next u = none ↔ (r.state n).next u = none)) →
      r.action k = ((r.state n).pc w).act w → Nearer t b (r.state (k + 1))) :
    ∃ k, n ≤ k ∧ Nearer t b (r.state k) := by
  refine r.leads (P := Nearer t b) (A := (· = ((r.state n).pc w).act w))
    (Q := fun s => Waiting s t u b ∧ s.pc u = (r.state n).pc u ∧ s.pc w = (r.state n).pc w ∧
      ((r.state n).pc u = .waitNext → (s.next u = none ↔ (r.state n).next u = none)))
    ⟨hwait, rfl, rfl, fun _ => Iff.rfl⟩ ?_ ?_ ?_
  · rintro k - ⟨hw, hpu, hpw, hnext⟩ hne
    have hinv := reachable_inv (r.reachable k)
    have hstep := r.step k
    have hofw : ¬ (r.action k).Of w := fun hof =>
      hne (hpw ▸ only_act hstep hof (hpw ▸ hidle) (hpw ▸ hparked))
    by_cases hofu : (r.action k).Of u
    · rcases hw.own hinv hstep hofu with hnear | ⟨hsame, -, -⟩
      · exact Or.inr hnear
      · rw [hsame]
        exact Or.inl ⟨hw, hpu, hpw, hnext⟩
    · rcases hw.other hinv hstep hofu with ⟨hw', hpu', hnext'⟩ | hnear
      · refine Or.inl ⟨hw', hpu'.trans hpu, ?_, fun h => (hnext' (hpu.trans h)).trans (hnext h)⟩
        rcases step_pc hstep hofw with hpw' | ⟨hp, -⟩
        · exact hpw'.trans hpw
        · exact absurd (hpw.symm.trans hp) hparked
      · exact Or.inr hnear
  · rintro k - ⟨hw, hpu, hpw, hnext⟩ hact
    exact hacts k hw hpu hpw hnext hact
  · by_cases hholding : (r.state n).pc w = .holding
    · obtain ⟨k, hk, hact | hno⟩ := hfair.unlocks w n
      · exact ⟨k, hk, Or.inl (by rw [hholding]; exact hact)⟩
      · exact ⟨k, hk, Or.inr fun hq => hno (hq.2.2.1.trans hholding)⟩
    · obtain ⟨k, hk, hact | hno⟩ := hfair.runs w n
      · refine ⟨k, hk, Or.inl ?_⟩
        rw [hact]
        generalize (r.state n).pc w = p at hholding
        cases p <;> first | rfl | exact absurd rfl hholding
      · refine ⟨k, hk, Or.inr fun hq => ?_⟩
        rw [hq.2.2.1] at hno
        rcases hno with hno | hno | hno
        · exact hidle hno
        · exact hparked hno
        · exact hholding hno

/-- A waiting thread gets nearer and nearer. -/
theorem Fair.falls (hfair : Fair r) (hw : ((r.state n).pc t).waits = true) :
    ∃ k, n ≤ k ∧ Nearer t (rank (r.state n) t) (r.state k) := by
  have hinv := reachable_inv (r.reachable n)
  have htq := (hinv.mem t).mpr (Or.inl hw)
  obtain ⟨u, q, hq⟩ := List.exists_cons_of_ne_nil (List.ne_nil_of_mem htq)
  have hwait : Waiting (r.state n) t u (rank (r.state n) t) := ⟨hw, ⟨q, hq⟩, rfl⟩
  have huq := (hinv.mem u).mp (hq ▸ List.mem_cons_self ..)
  have hfront : (r.state n).queue.head? = some u := by rw [hq]; rfl
  by_cases hparked : (r.state n).pc u = .parked
  · -- the call that wakes the first thread is on its way
    have hspin := (hinv.spin u (by rw [hparked]; rfl)).mpr hfront
    obtain ⟨w, hpw⟩ := hinv.parked u hparked hspin
    refine hfair.nearer hwait (by rw [hpw]; simp) (by rw [hpw]; simp) ?_
    intro k hk hpu hpw' _ hact
    rw [hpw] at hact hpw'
    rw [hparked] at hpu
    have hstep := r.step k
    have hwu : u ≠ w := by
      rintro rfl
      simp [hpu] at hpw'
    have hofu : ¬ (r.action k).Of u := by
      rw [hact]
      unfold Action.Of
      grind [Pc.act]
    rcases hk.other (reachable_inv (r.reachable k)) hstep hofu with ⟨-, hsame, -⟩ | hnear
    · rw [hact] at hstep
      simp only [machine, Pc.act, step, runThread, hpw', hpu, if_true, Option.some.injEq] at hstep
      rw [← hstep, State.goto_pc, if_neg hwu, State.goto_pc, if_pos rfl, hpu] at hsame
      cases hsame
    · exact hnear
  · by_cases hnext : (r.state n).pc u = .waitNext ∧ (r.state n).next u = none
    · -- the thread behind the first one has yet to link itself in
      obtain ⟨w, q', -, hpw⟩ := (hq ▸ hinv.linked).second_late hnext.2 (hinv.behind u hnext.1)
      have hpw : (r.state n).pc w = .link u := hpw
      refine hfair.nearer hwait (by rw [hpw]; simp) (by rw [hpw]; simp) ?_
      intro k hk hpu hpw' hsame hact
      rw [hpw] at hact hpw'
      rw [hnext.1] at hpu
      have hstep := r.step k
      have hwu : u ≠ w := by
        rintro rfl
        simp [hpu] at hpw'
      have hofu : ¬ (r.action k).Of u := by
        rw [hact]
        unfold Action.Of
        grind [Pc.act]
      rcases hk.other (reachable_inv (r.reachable k)) hstep hofu with ⟨-, -, hnone⟩ | hnear
      · have hnone' := (hnone hpu).mpr ((hsame hnext.1).mpr hnext.2)
        rw [hact] at hstep
        simp only [machine, Pc.act, step, runThread, hpw', Option.some.injEq] at hstep
        rw [← hstep, State.goto_next, State.setNext_next, if_pos rfl] at hnone'
        cases hnone'
      · exact hnear
    · have hidle : (r.state n).pc u ≠ .idle := by
        intro hidle
        rw [hidle] at huq
        simp [Pc.waits, Pc.owns] at huq
      refine hfair.nearer hwait hidle hparked ?_
      intro k hk hpu _ hsame hact
      have hof : (r.action k).Of u := by
        rw [hact]
        unfold Action.Of
        generalize (r.state n).pc u = p
        cases p <;> simp [Pc.act]
      rcases hk.own (reachable_inv (r.reachable k)) (r.step k) hof with hnear | ⟨-, hp, hno⟩
      · exact hnear
      · have hp' := hpu.symm.trans hp
        exact absurd ⟨hp', (hsame hp').mp hno⟩ hnext

/-- A thread on its way to the exchange takes its next step. -/
theorem Fair.next_step (hfair : Fair r) {p : Pc Thread} {P : State Thread → Prop}
    (hp : (r.state n).pc t = p) (hready : p ≠ .idle ∧ p ≠ .parked ∧ p ≠ .holding)
    (hstep : ∀ s s', s.pc t = p → runThread policy s t = some s' → P s') :
    ∃ k, n ≤ k ∧ P (r.state k) := by
  have hact : p.act t = .run t := by
    cases p <;> first | rfl | exact absurd rfl hready.2.2
  refine r.leads (Q := fun s => s.pc t = p) (A := (· = .run t)) hp ?_ ?_ ?_
  · intro k _ hpk hne
    have hof : ¬ (r.action k).Of t := fun hof => hne <| by
      rw [only_act (r.step k) hof (hpk ▸ hready.1) (hpk ▸ hready.2.1), hpk, hact]
    rcases step_pc (r.step k) hof with hsame | ⟨hparked, -⟩
    · exact Or.inl (hsame.trans hpk)
    · exact absurd (hpk.symm.trans hparked) hready.2.1
  · intro k _ hpk hrun
    have hs := r.step k
    rw [hrun] at hs
    exact hstep _ _ hpk hs
  · obtain ⟨k, hk, hrun | hno⟩ := hfair.runs t n
    · exact ⟨k, hk, Or.inl hrun⟩
    · refine ⟨k, hk, Or.inr fun hpk => ?_⟩
      rw [hpk] at hno
      rcases hno with hno | hno | hno
      · exact hready.1 hno
      · exact hready.2.1 hno
      · exact hready.2.2 hno

/-- **Nobody starves.**  In a fair run a thread that has called `mcs_mutex_lock` gets the lock, for
every waiting policy, whatever the other threads do and whenever the kernel lets a parked thread
go. -/
theorem mcs_starvation_free (hfair : Fair r)
    (hcall : (r.state n).pc t = .reset ∨ (r.state n).pc t = .xchg ∨
      ((r.state n).pc t).waits = true) : ∃ k, n ≤ k ∧ (r.state k).pc t = .holding := by
  have hwaits : ∀ n, ((r.state n).pc t).waits = true →
      ∃ k, n ≤ k ∧ (r.state k).pc t = .holding := by
    intro n hw
    refine r.descends Nat.lt_wfRel.wf (fun s b => (s.pc t).waits = true ∧ rank s t = b)
      (P := fun s => s.pc t = .holding) ?_ _ n ⟨hw, rfl⟩
    rintro n b ⟨hw, rfl⟩
    obtain ⟨k, hk, hholding | ⟨hw', hless⟩⟩ := hfair.falls hw
    · exact ⟨k, hk, Or.inl hholding⟩
    · exact ⟨k, hk, Or.inr ⟨_, hless, hw', rfl⟩⟩
  have hxchg : ∀ n, (r.state n).pc t = .xchg → ∃ k, n ≤ k ∧ (r.state k).pc t = .holding := by
    intro n hpc
    obtain ⟨k, hk, hdone⟩ := hfair.next_step hpc (by simp)
      (P := fun s => s.pc t = .holding ∨ (s.pc t).waits = true) fun s s' hp hs => by
        simp only [runThread, hp] at hs
        split at hs <;> cases hs
        · exact Or.inl (by simp)
        · exact Or.inr (by simp [Pc.waits])
    rcases hdone with hholding | hw
    · exact ⟨k, hk, hholding⟩
    · obtain ⟨k', hk', hholding⟩ := hwaits k hw
      exact ⟨k', Nat.le_trans hk hk', hholding⟩
  rcases hcall with hpc | hpc | hw
  · obtain ⟨k, hk, hpc'⟩ := hfair.next_step hpc (by simp) (P := fun s => s.pc t = .xchg)
      fun s s' hp hs => by
        simp only [runThread, hp, Option.some.injEq] at hs
        subst hs
        simp
    obtain ⟨k', hk', hholding⟩ := hxchg k hpc'
    exact ⟨k', Nat.le_trans hk hk', hholding⟩
  · exact hxchg n hpc
  · exact hwaits n hw

end Starvation

/-- One thread is parked behind the other, again and again. -/
def parkedRound : List (Action Bool) :=
  [.lock false, .run false, .run false, .lock true, .run true, .run true, .run true, .run true,
    .unlock false, .run false, .run false, .run true, .unlock true, .run true]

theorem parkedRound_again (s : State Bool) (hs : s.tail = none ∧ ∀ t, s.pc t = .idle) :
    ∃ s', (machine .park).exec s parkedRound = some s' ∧ s'.tail = none ∧
      ∀ t, s'.pc t = .idle := by
  obtain ⟨tail, next, spin, pc, arrived, released⟩ := s
  obtain ⟨rfl, hpc⟩ := hs
  obtain rfl : pc = fun _ => .idle := funext hpc
  exact ⟨_, rfl, rfl, fun t => by cases t <;> rfl⟩

/-- Both threads take every kind of step in every round. -/
theorem parkedRound_fair {r : (machine .park : System (State Bool) _).Endless}
    (hact : ∀ k, parkedRound[k % parkedRound.length]? = some (r.action k)) : Fair r := by
  have hat : ∀ n j a, j < 14 → parkedRound[j]? = some a → r.action (14 * n + j) = a := by
    intro n j a hj ha
    have hk := hact (14 * n + j)
    have hmod : (14 * n + j) % parkedRound.length = j := by
      show (14 * n + j) % 14 = j
      omega
    rw [hmod, ha] at hk
    exact (Option.some.inj hk).symm
  constructor
  · intro t n
    cases t
    · exact ⟨14 * n + 1, by omega, Or.inl (hat n 1 _ (by decide) rfl)⟩
    · exact ⟨14 * n + 4, by omega, Or.inl (hat n 4 _ (by decide) rfl)⟩
  · intro t n
    cases t
    · exact ⟨14 * n + 8, by omega, Or.inl (hat n 8 _ (by decide) rfl)⟩
    · exact ⟨14 * n + 12, by omega, Or.inl (hat n 12 _ (by decide) rfl)⟩

theorem mcs_starvation_free_parked : ∃ r : (machine .park : System (State Bool) _).Endless,
    (r.state 8).pc true = .parked ∧ ∃ k, 8 ≤ k ∧ (r.state k).pc true = .holding := by
  obtain ⟨r, hzero, hact⟩ := System.exists_cycle (M := (machine .park : System (State Bool) _))
    (S := fun s => s.tail = none ∧ ∀ t, s.pc t = .idle) (by decide) parkedRound_again
    ⟨fun _ => none, fun _ => false, rfl⟩ ⟨rfl, fun _ => rfl⟩
  have hrun := r.exec_range 8
  have hround : (List.range 8).map r.action = parkedRound.take 8 := by
    refine List.ext_getElem? fun k => ?_
    rcases Nat.lt_or_ge k 8 with hk | hk
    · have hmod : k % parkedRound.length = k := Nat.mod_eq_of_lt (Nat.lt_trans hk (by decide))
      rw [List.getElem?_take_of_lt hk, ← hmod, hact k, hmod]
      simp [hk]
    · simp [hk]
  rw [hzero, hround] at hrun
  have hparked : (r.state 8).pc true = .parked := by
    rw [← Option.some.inj hrun]
    rfl
  exact ⟨r, hparked, mcs_starvation_free (parkedRound_fair hact)
    (Or.inr (Or.inr (by rw [hparked]; rfl)))⟩

end Dal.Mcs
