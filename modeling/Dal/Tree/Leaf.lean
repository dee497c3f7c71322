/-
What a leaf page holds, and what storing into one and deleting from one does to it.

`LeafPage.Ok` is what every version of every leaf satisfies that was ever written.  The
facts about `store` and `del` are collected in one lemma each, by the outcomes the
machine distinguishes; in particular no assertion but the one about `lowest` is ever
within reach of a leaf that is `Ok`.
-/
import Dal.Tree.Page
import Mathlib.Data.List.Pairwise

namespace Dal

/-- The page holds `v` under `k`. -/
def LeafPage.Has (page : LeafPage) (k : Nat) (v : Nat) : Prop :=
  ∃ r ∈ page.records, r.live = true ∧ r.key = k ∧ r.value = v

/-- Two records do not hold the same key. -/
def LeafEntry.Distinct (a b : LeafEntry) : Prop := a.live = true → b.live = true → a.key ≠ b.key

theorem LeafEntry.Distinct.symm {a b : LeafEntry} (h : a.Distinct b) : b.Distinct a :=
  fun hb ha heq => h ha hb heq.symm

instance : Std.Symm LeafEntry.Distinct := ⟨fun _ _ h => h.symm⟩

/-- A leaf as it is between two assignments of a store: `Ok` but for the room. -/
structure LeafPage.Sound (page : LeafPage) : Prop where
  level : page.hdr.level = 0
  leftmost : page.hdr.leftmostPtr = .Null
  consistent : page.rearVersion = page.frontVersion
  range : page.hdr.lowest < page.hdr.highest
  versions : ∀ r ∈ page.records, r.fVersion = r.rVersion
  within : ∀ r ∈ page.records, r.live = true → page.hdr.lowest ≤ r.key ∧ r.key < page.hdr.highest
  distinct : page.records.Pairwise LeafEntry.Distinct

structure LeafPage.Ok (page : LeafPage) : Prop extends page.Sound where
  /-- There is always room for one more key. -/
  room : page.records.countP LeafEntry.live < kLeafCardinality

namespace LeafPage

variable {page : LeafPage} {k : Nat} {v : Nat}

/-! ### Replacing one record -/

theorem exists_of_getElem? {α : Type} {l : List α} {i : Nat} {x : α} (h : l[i]? = some x) :
    ∃ pre post, l = pre ++ x :: post ∧ pre.length = i ∧ ∀ a, l.set i a = pre ++ a :: post := by
  obtain ⟨hi, hx⟩ := List.getElem?_eq_some_iff.mp h
  refine ⟨l.take i, l.drop (i + 1), ?_, by simp; omega, fun a => ?_⟩
  · rw [← hx, List.getElem_cons_drop, List.take_append_drop]
  · rw [List.set_eq_take_append_cons_drop, if_pos hi]

theorem Sound.has_unique (hok : page.Sound) {v' : Nat} (h : page.Has k v)
    (h' : page.Has k v') : v = v' := by
  obtain ⟨r, hr, hlive, hk, hv⟩ := h
  obtain ⟨r', hr', hlive', hk', hv'⟩ := h'
  by_cases heq : r = r'
  · rw [← hv, ← hv', heq]
  · have hne := hok.distinct.forall hr hr' heq
    exact absurd (hk.trans hk'.symm) (hne hlive hlive')

/-- Replacing record `i` by one that shares its key with no other. -/
theorem Sound.set (hok : page.Sound) {i : Nat} {old r : LeafEntry}
    (hold : page.records[i]? = some old) (hver : r.fVersion = r.rVersion)
    (hrange : page.hdr.lowest ≤ r.key ∧ r.key < page.hdr.highest)
    (hother : ∀ x ∈ page.records, x.live = true → x.key = r.key → x = old ∧ old.live = true) :
    (page.set i r).Sound := by
  obtain ⟨pre, post, hsplit, -, hset⟩ := exists_of_getElem? hold
  have hdist := hok.distinct
  rw [hsplit, List.pairwise_append, List.pairwise_cons] at hdist
  obtain ⟨hpre, ⟨holdpost, hpost⟩, hcross⟩ := hdist
  have hrecords : (page.set i r).records = pre ++ r :: post := hset r
  have hne : ∀ x, x ∈ pre ∨ x ∈ post → x.Distinct r := by
    intro x hx hlive _ hkey
    have hmem : x ∈ page.records := by rw [hsplit]; grind
    obtain ⟨rfl, holdlive⟩ := hother x hmem hlive hkey
    rcases hx with hx | hx
    · exact hcross x hx x (List.mem_cons_self ..) hlive holdlive rfl
    · exact holdpost x hx holdlive hlive rfl
  refine ⟨hok.level, hok.leftmost, hok.consistent, hok.range, ?_, ?_, ?_⟩
  · intro x hx
    rw [hrecords] at hx
    have := hok.versions x
    grind
  · intro x hx
    rw [hrecords] at hx
    have := hok.within x
    have : (page.set i r).hdr = page.hdr := rfl
    grind
  · rw [hrecords, List.pairwise_append, List.pairwise_cons]
    refine ⟨hpre, ⟨fun x hx => (hne x (Or.inr hx)).symm, hpost⟩, fun a ha b hb => ?_⟩
    rcases List.mem_cons.mp hb with rfl | hb
    · exact hne a (Or.inl ha)
    · exact hcross a ha b (List.mem_cons_of_mem _ hb)

theorem countP_set {i : Nat} {old r : LeafEntry} (hold : page.records[i]? = some old) :
    (page.set i r).records.countP LeafEntry.live + (if old.live then 1 else 0) =
      page.records.countP LeafEntry.live + if r.live then 1 else 0 := by
  obtain ⟨pre, post, hsplit, -, hset⟩ := exists_of_getElem? hold
  have hrecords : (page.set i r).records = pre ++ r :: post := hset r
  rw [hrecords, hsplit]
  simp only [List.countP_append, List.countP_cons]
  omega

/-- `page'` holds what `page` does, but for key `k`, under which it holds `stored`. -/
def Changed (page page' : LeafPage) (k : Nat) (stored : Option Nat) : Prop :=
  ∀ k' v', page'.Has k' v' ↔ if k' = k then stored = some v' else page.Has k' v'

/-- What the page holds after that: `r` under its key, if it is live, and the other keys'. -/
theorem Sound.changed (hok : page.Sound) {i : Nat} {old r : LeafEntry} {stored : Option Nat}
    (hold : page.records[i]? = some old) (hr : r.key = k)
    (hstored : ∀ v, stored = some v ↔ r.live = true ∧ r.value = v)
    (hkey : old.live = true → old.key = k)
    (hother : ∀ x ∈ page.records, x.live = true → x.key = k → x = old ∧ old.live = true) :
    Changed page (page.set i r) k stored := by
  intro k' v'
  obtain ⟨pre, post, hsplit, -, hset⟩ := exists_of_getElem? hold
  have hrecords : (page.set i r).records = pre ++ r :: post := hset r
  have hdist := hok.distinct
  rw [hsplit, List.pairwise_append, List.pairwise_cons] at hdist
  obtain ⟨-, ⟨holdpost, -⟩, hcross⟩ := hdist
  have hne : ∀ x, x ∈ pre ∨ x ∈ post → x.live = true → x.key ≠ k := by
    intro x hx hlive hk
    obtain ⟨rfl, holdlive⟩ := hother x (by rw [hsplit]; grind) hlive hk
    rcases hx with hx | hx
    · exact hcross x hx x (List.mem_cons_self ..) hlive holdlive rfl
    · exact holdpost x hx holdlive hlive rfl
  unfold Has
  rw [hrecords, hsplit]
  constructor
  · rintro ⟨x, hx, hlive, hk, hv⟩
    rcases List.mem_append.mp hx with hx | hx
    · have := hne x (Or.inl hx) hlive
      rw [if_neg (by rw [← hk]; exact this)]
      exact ⟨x, by simp [hx], hlive, hk, hv⟩
    · rcases List.mem_cons.mp hx with rfl | hx
      · rw [if_pos (hk.symm.trans hr), hstored]
        exact ⟨hlive, hv⟩
      · have := hne x (Or.inr hx) hlive
        rw [if_neg (by rw [← hk]; exact this)]
        exact ⟨x, by simp [hx], hlive, hk, hv⟩
  · split
    · rename_i hk'
      rw [hstored]
      rintro ⟨hlive, hv⟩
      exact ⟨r, by simp, hlive, hr.trans hk'.symm, hv⟩
    · rename_i hk'
      rintro ⟨x, hx, hlive, hk, hv⟩
      rcases List.mem_append.mp hx with hx | hx
      · exact ⟨x, by simp [hx], hlive, hk, hv⟩
      · rcases List.mem_cons.mp hx with rfl | hx
        · exact absurd (hk.symm.trans (hkey hlive)) hk'
        · exact ⟨x, by simp [hx], hlive, hk, hv⟩

/-! ### Splitting a full leaf -/

theorem live_clear (r : LeafEntry) : r.clear.live = false := by simp [LeafEntry.clear, LeafEntry.live]

theorem live_new : LeafEntry.new.live = false := by decide

/-- The sorted records of a full leaf: the keys strictly increase. -/
theorem Sound.sorted (hok : page.Sound) (hfull : ∀ r ∈ page.records, r.live = true) :
    (page.records.insertionSort fun a b => a.key ≤ b.key).Pairwise fun a b => a.key < b.key := by
  have : Std.Total fun a b : LeafEntry => a.key ≤ b.key := ⟨fun a b => Nat.le_total _ _⟩
  have : IsTrans LeafEntry fun a b => a.key ≤ b.key := ⟨fun _ _ _ => Nat.le_trans⟩
  have hle := List.pairwise_insertionSort (fun a b : LeafEntry => a.key ≤ b.key) page.records
  have hperm := List.perm_insertionSort (fun a b : LeafEntry => a.key ≤ b.key) page.records
  have hne := (hperm.pairwise_iff (R := LeafEntry.Distinct) (fun h => h.symm)).mpr hok.distinct
  refine (hle.and hne).imp_of_mem fun ha hb h => ?_
  exact Nat.lt_of_le_of_ne h.1
    (h.2 (hfull _ (hperm.mem_iff.mp ha)) (hfull _ (hperm.mem_iff.mp hb)))

/-- A sorted list of 54 records, cut in the middle. -/
theorem cut_sorted {rs : List LeafEntry} (hlen : rs.length = kLeafCardinality)
    (hsort : rs.Pairwise fun a b => a.key < b.key) :
    (∀ a ∈ rs.take 27, a.key < (rs.getD 27 .new).key) ∧
    (∀ b ∈ rs.drop 27, (rs.getD 27 .new).key ≤ b.key) ∧
    rs.getD 27 .new ∈ rs ∧ ∃ a ∈ rs, a.key < (rs.getD 27 .new).key := by
  have h27 : 27 < rs.length := by rw [hlen]; decide
  have hget : rs.getD 27 .new = rs[27] := by simp [List.getD, h27]
  have hdrop : rs.drop 27 = rs[27] :: rs.drop 28 := List.drop_eq_getElem_cons h27
  have hsplit := List.take_append_drop 27 rs
  rw [← hsplit, hdrop, List.pairwise_append, List.pairwise_cons] at hsort
  obtain ⟨-, ⟨hhead, -⟩, hcross⟩ := hsort
  rw [hget]
  refine ⟨fun a ha => hcross a ha _ (List.mem_cons_self ..), fun b hb => ?_,
    List.getElem_mem h27, ?_⟩
  · rw [hdrop] at hb
    rcases List.mem_cons.mp hb with rfl | hb
    · exact Nat.le_refl _
    · exact Nat.le_of_lt (hhead b hb)
  · have h0 : rs[0] ∈ rs.take 27 := by
      rw [List.mem_take_iff_getElem]
      exact ⟨0, by omega, rfl⟩
    exact ⟨rs[0], List.getElem_mem (by omega), hcross _ h0 _ (List.mem_cons_self ..)⟩

/-- What the split of a leaf leaves: two leaves that share out its range and its keys. -/
structure IsSplit (page left right : LeafPage) (splitKey : Nat) : Prop where
  inside : page.hdr.lowest < splitKey ∧ splitKey < page.hdr.highest
  leftOk : left.Ok
  rightOk : right.Ok
  leftHdr : left.hdr = { page.hdr with highest := splitKey }
  rightLowest : right.hdr.lowest = splitKey
  rightHighest : right.hdr.highest = page.hdr.highest
  rightSibling : right.hdr.siblingPtr = page.hdr.siblingPtr
  has : ∀ k v, page.Has k v ↔ left.Has k v ∨ right.Has k v

/-- The split, once the records are sorted. -/
theorem Sound.splitSorted (hok : page.Sound) {rs : List LeafEntry}
    (hlen : rs.length = kLeafCardinality) (hperm : rs.Perm page.records)
    (hfull : ∀ r ∈ page.records, r.live = true) (hsort : rs.Pairwise fun a b => a.key < b.key) :
    ∃ left right splitKey, page.splitSorted rs hlen = .split (.leaf left) (.leaf right) splitKey ∧
      IsSplit page left right splitKey := by
  obtain ⟨hlt, hge, hmem, a, ha, halt⟩ := cut_sorted hlen hsort
  have hdist := (hperm.pairwise_iff (R := LeafEntry.Distinct) (fun h => h.symm)).mpr hok.distinct
  have hver : ∀ r ∈ rs, r.fVersion = r.rVersion := fun r hr =>
    hok.versions r (hperm.mem_iff.mp hr)
  have hlive : ∀ r ∈ rs, r.live = true := fun r hr => hfull r (hperm.mem_iff.mp hr)
  have hwithin : ∀ r ∈ rs, page.hdr.lowest ≤ r.key ∧ r.key < page.hdr.highest := fun r hr =>
    hok.within r (hperm.mem_iff.mp hr) (hlive r hr)
  simp only [LeafPage.splitSorted, show kLeafCardinality / 2 = 27 from rfl]
  generalize rs.getD 27 .new = middle at *
  have hinside : page.hdr.lowest < middle.key ∧ middle.key < page.hdr.highest :=
    ⟨Nat.lt_of_le_of_lt (hwithin a ha).1 halt, (hwithin middle hmem).2⟩
  rw [if_pos hinside]
  have hmoved : ∀ r, r ∈ rs.drop 27 → r ∈ rs := fun r hr => List.mem_of_mem_drop hr
  have htaken : ∀ r, r ∈ rs.take 27 → r ∈ rs := fun r hr => List.mem_of_mem_take hr
  refine ⟨_, _, _, rfl, hinside, ⟨⟨hok.level, hok.leftmost, rfl, hinside.1, ?_, ?_, ?_⟩, ?_⟩,
    ⟨⟨hok.level, rfl, rfl, hinside.2, ?_, ?_, ?_⟩, ?_⟩, rfl, rfl, rfl, rfl, ?_⟩
  · intro r hr
    simp only [setConsistent, List.mem_append, List.mem_map] at hr
    rcases hr with hr | ⟨x, hx, rfl⟩
    · exact hver r (htaken r hr)
    · exact hver x (hmoved x hx)
  · intro r hr hl
    simp only [setConsistent, List.mem_append, List.mem_map] at hr
    rcases hr with hr | ⟨x, hx, rfl⟩
    · exact ⟨(hwithin r (htaken r hr)).1, hlt r hr⟩
    · rw [live_clear] at hl
      cases hl
  · refine List.pairwise_append.mpr ⟨hdist.sublist (List.take_sublist ..), ?_, ?_⟩
    · refine List.pairwise_map.mpr (List.pairwise_of_forall fun x y hx => ?_)
      rw [live_clear] at hx
      cases hx
    · intro x _ y hy _ hl
      obtain ⟨z, -, rfl⟩ := List.mem_map.mp hy
      rw [live_clear] at hl
      cases hl
  · have hclear : ((rs.drop 27).map LeafEntry.clear).countP LeafEntry.live = 0 := by
      rw [List.countP_eq_zero]
      intro x hx
      obtain ⟨z, -, rfl⟩ := List.mem_map.mp hx
      simp [live_clear]
    have htake : (rs.take 27).countP LeafEntry.live ≤ 27 :=
      Nat.le_trans List.countP_le_length (by simp)
    simp only [setConsistent, List.countP_append, hclear]
    exact Nat.lt_of_le_of_lt htake (by decide)
  · intro r hr
    simp only [setConsistent, List.mem_append, List.mem_map, List.mem_replicate] at hr
    rcases hr with ⟨x, hx, rfl⟩ | ⟨-, rfl⟩ <;> rfl
  · intro r hr hl
    simp only [setConsistent, List.mem_append, List.mem_map, List.mem_replicate] at hr
    rcases hr with ⟨x, hx, rfl⟩ | ⟨-, rfl⟩
    · exact ⟨hge x hx, (hwithin x (hmoved x hx)).2⟩
    · cases hl
  · refine List.pairwise_append.mpr ⟨?_, ?_, ?_⟩
    · exact List.pairwise_map.mpr (hdist.sublist (List.drop_sublist ..))
    · exact List.pairwise_replicate.mpr (Or.inr fun hl => by cases hl)
    · intro x _ y hy _ hl
      obtain ⟨-, rfl⟩ := List.mem_replicate.mp hy
      cases hl
  · have hnew : (List.replicate 27 LeafEntry.new).countP LeafEntry.live = 0 := by decide
    have hdrop : ((rs.drop 27).map LeafEntry.moved).countP LeafEntry.live ≤ 27 :=
      Nat.le_trans List.countP_le_length (by simp [hlen, kLeafCardinality])
    simp only [setConsistent, List.countP_append, hnew]
    exact Nat.lt_of_le_of_lt hdrop (by decide)
  · intro k v
    simp only [Has, setConsistent, List.mem_append, List.mem_map, List.mem_replicate]
    constructor
    · rintro ⟨r, hr, -, hk, hv⟩
      replace hr := hperm.mem_iff.mpr hr
      rw [← List.take_append_drop 27 rs, List.mem_append] at hr
      rcases hr with hr | hr
      · exact Or.inl ⟨r, Or.inl hr, hlive r (htaken r hr), hk, hv⟩
      · exact Or.inr ⟨r.moved, Or.inl ⟨r, hr, rfl⟩, hlive r (hmoved r hr), hk, hv⟩
    · rintro (⟨r, hr | ⟨x, hx, rfl⟩, hl, hk, hv⟩ | ⟨r, ⟨x, hx, rfl⟩ | ⟨-, rfl⟩, hl, hk, hv⟩)
      · exact ⟨r, hperm.mem_iff.mp (htaken r hr), hl, hk, hv⟩
      · rw [live_clear] at hl
        cases hl
      · exact ⟨x, hperm.mem_iff.mp (hmoved x hx), hlive x (hmoved x hx), hk, hv⟩
      · cases hl

theorem Sound.split (hok : page.Sound) (hfull : ∀ r ∈ page.records, r.live = true) :
    ∃ left right splitKey, page.split = .split (.leaf left) (.leaf right) splitKey ∧
      IsSplit page left right splitKey :=
  hok.splitSorted _ (List.perm_insertionSort ..) hfull (hok.sorted hfull)

/-! ### The loops -/

/-- If the loop of `leaf_page_store` stopped, it is at a live record of the key. -/
theorem scan_update : ∀ {rs : List LeafEntry} {i : Nat} {acc : Scan} {j : Nat},
    acc.updateIndex = none → (scan k i rs acc).updateIndex = some j →
    ∃ n r, j = i + n ∧ rs[n]? = some r ∧ r.live = true ∧ r.key = k := by
  intro rs
  induction rs with
  | nil =>
      intro i acc j hacc h
      rw [scan, hacc] at h
      cases h
  | cons r rs ih =>
      intro i acc j hacc h
      rw [scan] at h
      split at h
      · rename_i hlive
        split at h
        · rename_i hk
          cases h
          exact ⟨0, r, rfl, rfl, hlive, hk⟩
        · obtain ⟨n, x, hj, hx⟩ := @ih (i + 1) { acc with cnt := acc.cnt + 1 } j hacc h
          exact ⟨n + 1, x, by omega, hx⟩
      · obtain ⟨n, x, hj, hx⟩ := ih (by split <;> exact hacc) h
        exact ⟨n + 1, x, by omega, hx⟩

theorem scan_cnt_le : ∀ (rs : List LeafEntry) (i : Nat) (acc : Scan),
    (scan k i rs acc).cnt ≤ acc.cnt + rs.countP LeafEntry.live := by
  intro rs
  induction rs with
  | nil => intro i acc; exact Nat.le_refl _
  | cons r rs ih =>
      intro i acc
      rw [scan, List.countP_cons]
      split
      · split
        · simp only
          omega
        · have := ih (i + 1) { acc with cnt := acc.cnt + 1 }
          simp only at this
          omega
      · have := ih (i + 1) (if acc.emptyIndex = none then { acc with emptyIndex := some i } else acc)
        split at this
        · rename_i he
          rw [if_pos he]
          simp only at this
          omega
        · rename_i he
          rw [if_neg he]
          omega

/-- If it ran through, the key is not there, all live records were counted, and the first
dead one was noted if there is one. -/
theorem scan_none : ∀ {rs : List LeafEntry} {i : Nat} {acc : Scan},
    (scan k i rs acc).updateIndex = none →
    (∀ r ∈ rs, r.live = true → r.key ≠ k) ∧
    (scan k i rs acc).cnt = acc.cnt + rs.countP LeafEntry.live ∧
    ((scan k i rs acc).emptyIndex = none → acc.emptyIndex = none ∧ ∀ r ∈ rs, r.live = true) ∧
    (∀ j, (scan k i rs acc).emptyIndex = some j → acc.emptyIndex = some j ∨
      ∃ n r, j = i + n ∧ rs[n]? = some r ∧ r.live = false) := by
  intro rs
  induction rs with
  | nil =>
      intro i acc _
      refine ⟨by simp, by simp [scan], fun h => ⟨h, by simp⟩, fun j h => Or.inl h⟩
  | cons r rs ih =>
      intro i acc h
      rw [scan] at h ⊢
      split at h
      · rename_i hlive
        rw [if_pos hlive]
        split at h
        · cases h
        · rename_i hk
          rw [if_neg hk]
          obtain ⟨hkeys, hcnt, hfull, hempty⟩ := ih h
          refine ⟨?_, ?_, ?_, ?_⟩
          · grind
          · rw [hcnt, List.countP_cons, if_pos hlive]
            show acc.cnt + 1 + _ = _
            omega
          · intro hn
            obtain ⟨hacc, hall⟩ := hfull hn
            exact ⟨hacc, by grind⟩
          · intro j hj
            rcases hempty j hj with hacc | ⟨n, x, hn, hx⟩
            · exact Or.inl hacc
            · exact Or.inr ⟨n + 1, x, by omega, hx⟩
      · rename_i hlive
        rw [if_neg hlive]
        obtain ⟨hkeys, hcnt, hfull, hempty⟩ := ih h
        refine ⟨?_, ?_, ?_, ?_⟩
        · grind
        · rw [hcnt, List.countP_cons, if_neg hlive]
          split <;> rfl
        · intro hn
          obtain ⟨hacc, -⟩ := hfull hn
          split at hacc
          · cases hacc
          · exact absurd hacc ‹_›
        · intro j hj
          rcases hempty j hj with hacc | ⟨n, x, hn, hx⟩
          · split at hacc
            · cases hacc
              exact Or.inr ⟨0, r, rfl, rfl, by simpa using hlive⟩
            · exact Or.inl hacc
          · exact Or.inr ⟨n + 1, x, by omega, hx⟩

theorem findLive_some : ∀ {rs : List LeafEntry} {i j : Nat}, findLive k i rs = some j →
    ∃ n r, j = i + n ∧ rs[n]? = some r ∧ r.live = true ∧ r.key = k := by
  intro rs
  induction rs with
  | nil => intro i j h; cases h
  | cons r rs ih =>
      intro i j h
      rw [findLive] at h
      split at h
      · rename_i hr
        cases h
        exact ⟨0, r, rfl, rfl, hr.2, hr.1⟩
      · obtain ⟨n, x, hj, hx⟩ := ih h
        exact ⟨n + 1, x, by omega, hx⟩

theorem findLive_none : ∀ {rs : List LeafEntry} {i : Nat}, findLive k i rs = none →
    ∀ r ∈ rs, r.live = true → r.key ≠ k := by
  intro rs
  induction rs with
  | nil => intro i _ r hr; cases hr
  | cons r rs ih =>
      intro i h
      rw [findLive] at h
      split at h
      · cases h
      · have := ih h
        grind

/-- `leaf_page_search` finds what the page holds. -/
theorem leafPageSearch_eq : ∀ {rs : List LeafEntry}, (∀ r ∈ rs, r.fVersion = r.rVersion) →
    (leafPageSearch k rs ≠ kValueNull →
      ∃ r ∈ rs, r.live = true ∧ r.key = k ∧ r.value = leafPageSearch k rs) ∧
    (leafPageSearch k rs = kValueNull → ∀ r ∈ rs, r.live = true → r.key ≠ k) := by
  intro rs
  induction rs with
  | nil => intro _; exact ⟨fun h => absurd rfl h, fun _ r hr => by cases hr⟩
  | cons r rs ih =>
      intro hver
      obtain ⟨hfound, hnone⟩ := ih fun x hx => hver x (List.mem_cons_of_mem _ hx)
      have hr := hver r (List.mem_cons_self ..)
      rw [leafPageSearch]
      by_cases hmatch : r.key = k ∧ r.value ≠ kValueNull
      · rw [if_pos ⟨hmatch.1, hmatch.2, hr⟩]
        refine ⟨fun _ => ⟨r, List.mem_cons_self .., ?_, hmatch.1, rfl⟩, fun h => absurd h hmatch.2⟩
        simp [LeafEntry.live, hmatch.2]
      · rw [if_neg fun h => hmatch ⟨h.1, h.2.1⟩]
        refine ⟨fun h => ?_, fun h x hx hlive hk => ?_⟩
        · obtain ⟨x, hx, hrest⟩ := hfound h
          exact ⟨x, List.mem_cons_of_mem _ hx, hrest⟩
        · rcases List.mem_cons.mp hx with rfl | hx
          · exact hmatch ⟨hk, by simpa [LeafEntry.live] using hlive⟩
          · exact hnone h x hx hlive hk

/-! ### Storing and deleting -/

/-- What may become of a leaf under its lock. -/
inductive Result (page : LeafPage) (k : Nat) (stored : Option Nat) (cached : Bool) :
    Outcome → Prop
  | stale (hcached : cached = true) (hk : page.hdr.highest ≤ k) : Result page k stored cached .stale
  | right (hcached : cached = false) (hk : page.hdr.highest ≤ k) :
      Result page k stored cached (.right page.hdr.siblingPtr)
  | entry (i : Nat) (r : LeafEntry) (hk : k < page.hdr.highest) (hok : (page.set i r).Ok)
      (hchanged : Changed page (page.set i r) k stored) : Result page k stored cached (.entry i r)
  | absent (hk : k < page.hdr.highest) (hnone : stored = none) (habsent : ∀ v, ¬ page.Has k v) :
      Result page k stored cached .absent
  | split (mid left right : LeafPage) (splitKey : Nat) (hk : k < page.hdr.highest)
      (hdr : mid.hdr = page.hdr) (hsplit : IsSplit mid left right splitKey)
      (hchanged : Changed page mid k stored) (hstored : stored ≠ none) :
      Result page k stored cached (.split (.leaf left) (.leaf right) splitKey)

theorem live_write {r : LeafEntry} (hv : v ≠ kValueNull) : (r.write k v).live = true := by
  simp [LeafEntry.write, LeafEntry.live, hv]

theorem write_stored (hv : v ≠ kValueNull) (r : LeafEntry) (v' : Nat) :
    some v = some v' ↔ (r.write k v).live = true ∧ (r.write k v).value = v' := by
  rw [live_write hv, Option.some_inj]
  exact ⟨fun h => ⟨rfl, h⟩, fun h => h.2⟩

theorem dead_write (r : LeafEntry) : (r.write k kValueNull).live = false := by
  simp [LeafEntry.write, LeafEntry.live]

/-- A record of the key is the only one, so others with the key are it. -/
theorem Sound.only (hok : page.Sound) {old : LeafEntry} (hold : old ∈ page.records)
    (hlive : old.live = true) (hk : old.key = k) :
    ∀ x ∈ page.records, x.live = true → x.key = k → x = old ∧ old.live = true := by
  intro x hx hxlive hxk
  refine ⟨?_, hlive⟩
  by_contra hne
  exact hok.distinct.forall hx hold hne hxlive hlive (hxk.trans hk.symm)

theorem Ok.store (hok : page.Ok) (hlow : page.hdr.lowest ≤ k) (hv : v ≠ kValueNull)
    (cached : Bool) : Result page k (some v) cached (page.store k v cached) := by
  unfold LeafPage.store
  rw [if_neg (not_not_intro hok.level), if_neg (not_not_intro hok.consistent)]
  by_cases hk : page.hdr.highest ≤ k
  · cases cached with
    | true =>
        rw [if_pos ⟨rfl, Or.inr hk⟩]
        exact .stale rfl hk
    | false =>
        rw [if_neg (by simp), if_pos hk]
        exact .right rfl hk
  rw [if_neg (by omega), if_neg hk, if_neg (by omega)]
  replace hk : k < page.hdr.highest := Nat.lt_of_not_le hk
  have hcnt := scan_cnt_le (k := k) page.records 0 ⟨0, none, none⟩
  have hroom := hok.room
  simp only [Nat.zero_add] at hcnt
  rw [if_neg (by omega)]
  generalize hsc : scan k 0 page.records ⟨0, none, none⟩ = sc at *
  cases hupdate : sc.updateIndex with
  | some i =>
      -- the key is there: its record gets the new value
      obtain ⟨n, old, hi, hold, hlive, hkey⟩ :=
        scan_update (show Scan.updateIndex ⟨0, none, none⟩ = none from rfl) (hsc ▸ hupdate)
      rw [Nat.zero_add] at hi
      subst hi
      have hmem := List.mem_of_getElem? hold
      have honly := hok.only hmem hlive hkey
      have hset := hok.set hold (r := (page.records.getD i .new).write k v) rfl ⟨hlow, hk⟩ honly
      have hcount := countP_set hold (r := (page.records.getD i .new).write k v)
      rw [if_pos hlive, if_pos (live_write hv)] at hcount
      exact .entry i _ hk ⟨hset, by omega⟩
        (hok.changed hold rfl (write_stored hv _) (fun _ => hkey)
          honly)
  | none =>
      obtain ⟨hkeys, hcount, hfull, hempty⟩ :=
        scan_none (show (scan k 0 page.records ⟨0, none, none⟩).updateIndex = none by
          rw [hsc]; exact hupdate)
      rw [hsc] at hcount hfull hempty
      simp only [Nat.zero_add] at hcount
      cases hindex : sc.emptyIndex with
      | none =>
          -- impossible: some record is dead
          obtain ⟨-, hall⟩ := hfull hindex
          have := List.countP_eq_length.mpr hall
          rw [page.size] at this
          omega
      | some i =>
          obtain hno | ⟨n, old, hi, hold, hdead⟩ := hempty i hindex
          · cases hno
          rw [Nat.zero_add] at hi
          subst hi
          have honly : ∀ x ∈ page.records, x.live = true → x.key = k → x = old ∧ old.live = true :=
            fun x hx hlive hk' => absurd hk' (hkeys x hx hlive)
          have hset := hok.set hold (r := (page.records.getD i .new).write k v) rfl ⟨hlow, hk⟩ honly
          have hlive' := countP_set hold (r := (page.records.getD i .new).write k v)
          rw [hdead, if_pos (live_write hv)] at hlive'
          simp only [Bool.false_eq_true, if_false, Nat.add_zero] at hlive'
          have hchanged : Changed page (page.set i ((page.records.getD i .new).write k v)) k
              (some v) :=
            hok.changed hold rfl (write_stored hv _)
              (fun hl => by rw [hdead] at hl; cases hl) honly
          simp only
          split
          · have hall : ∀ r ∈ (page.set i ((page.records.getD i .new).write k v)).records,
                r.live = true := by
              refine List.countP_eq_length.mp ?_
              rw [LeafPage.size]
              omega
            obtain ⟨left, right, splitKey, heq, hsplit⟩ := hset.split hall
            rw [heq]
            exact .split (page.set i _) left right splitKey hk rfl hsplit hchanged (by simp)
          · exact .entry i _ hk ⟨hset, by omega⟩ hchanged

theorem Ok.del (hok : page.Ok) (hlow : page.hdr.lowest ≤ k) (cached : Bool) :
    Result page k none cached (page.del k cached) := by
  unfold LeafPage.del
  rw [if_neg (not_not_intro hok.level), if_neg (not_not_intro hok.consistent)]
  by_cases hk : page.hdr.highest ≤ k
  · cases cached with
    | true =>
        rw [if_pos ⟨rfl, Or.inr hk⟩]
        exact .stale rfl hk
    | false =>
        rw [if_neg (by simp), if_pos hk]
        exact .right rfl hk
  rw [if_neg (by omega), if_neg hk, if_neg (by omega)]
  replace hk : k < page.hdr.highest := Nat.lt_of_not_le hk
  cases hfind : findLive k 0 page.records with
  | none =>
      refine .absent hk rfl fun v => ?_
      rintro ⟨r, hr, hlive, hkey, -⟩
      exact findLive_none hfind r hr hlive hkey
  | some i =>
      obtain ⟨n, old, hi, hold, hlive, hkey⟩ := findLive_some hfind
      rw [Nat.zero_add] at hi
      subst hi
      have honly := hok.only (List.mem_of_getElem? hold) hlive hkey
      have hset := hok.set hold (r := (page.records.getD i .new).write k kValueNull) rfl
        ⟨hlow, hk⟩ honly
      have hcount := countP_set hold (r := (page.records.getD i .new).write k kValueNull)
      rw [if_pos hlive, dead_write] at hcount
      simp only [Bool.false_eq_true, if_false, Nat.add_zero] at hcount
      have hroom := hok.room
      exact .entry i _ hk ⟨hset, by omega⟩
        (hok.changed hold rfl (fun v' => by simp [dead_write]) (fun _ => hkey) honly)

end LeafPage

end Dal
