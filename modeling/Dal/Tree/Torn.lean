/-
A leaf entry that is written while it is read.

An update of a key writes the 18 bytes of its `LeafEntry` and nothing else of the page,
so the page versions of a reader agree whatever it saw, and `f_version` and `r_version`
of the entry are all that can tell.  Both the write and the read go from low addresses
to high ones.  How they interleave is a `Schedule`: how much of the entry is written when
the reader gets to each of its bytes.

The search answers with one of the two values when the two version bytes were seen from
the same side of the write and so were the value bytes that differ.  Otherwise it takes
the key for absent, or puts a value together that was never stored.
-/
import Dal.Tree.Leaf
import Dal.Tree.Machine
import Dal.Lib.Bytes

namespace Dal.Torn

open Bytes

/-! ### The bytes of an entry -/

/-- `LeafEntry` in memory: `packed`, with each four-bit version in a byte of its own. -/
def bytes (r : LeafEntry) (j : Nat) : Nat :=
  if j = 0 then r.fVersion
  else if j < 9 then byte r.key (j - 1)
  else if j < 17 then byte r.value (j - 9)
  else r.rVersion

/-- The entry a reader takes 18 bytes for. -/
def ofBytes (b : Nat → Nat) : LeafEntry where
  fVersion := ⟨b 0 % 16, Nat.mod_lt _ (by decide)⟩
  key := word fun j => b (j + 1)
  value := word fun j => b (j + 9)
  rVersion := ⟨b 17 % 16, Nat.mod_lt _ (by decide)⟩

section

variable (r : LeafEntry) {j : Nat}

theorem bytes_key (hj : j < 8) : bytes r (j + 1) = byte r.key j := by
  rw [bytes, if_neg (by omega), if_pos (by omega), Nat.add_sub_cancel]

theorem bytes_value (hj : j < 8) : bytes r (j + 9) = byte r.value j := by
  rw [bytes, if_neg (by omega), if_neg (by omega), if_pos (by omega), Nat.add_sub_cancel]

end

/-! ### A write under a read -/

/-- How many bytes of the entry are written when the reader gets to byte `j`. -/
structure Schedule where
  progress : Nat → Nat
  mono : Monotone progress

namespace Schedule

variable (σ : Schedule)

/-- The reader sees byte `j` as the write leaves it. -/
def sees (j : Nat) : Bool := decide (j < σ.progress j)

/-- The entry as it is read. -/
def torn (old new : LeafEntry) : LeafEntry :=
  ofBytes fun j => if σ.sees j then bytes new j else bytes old j

/-- The value that is read while `v₁` is overwritten by `v₂`. -/
def mixed (v₁ v₂ : Nat) : Nat :=
  word fun j => if σ.sees (j + 9) then byte v₂ j else byte v₁ j

/-- The page as it is read while `r` is written over its record `i`. -/
def read (page : LeafPage) (i : Nat) (r : LeafEntry) : LeafPage :=
  page.set i (σ.torn (page.records.getD i .new) r)

/-- The two versions are seen from one side of the write, and so are the bytes in which the
values differ. -/
def Clean (v₁ v₂ : Nat) : Prop :=
  σ.sees 0 = σ.sees 17 ∧
    ((∀ j < 8, byte v₁ j ≠ byte v₂ j → σ.sees (j + 9) = false) ∨
      ∀ j < 8, byte v₁ j ≠ byte v₂ j → σ.sees (j + 9) = true)

variable {old new : LeafEntry}

theorem torn_fVersion : (σ.torn old new).fVersion =
    if σ.sees 0 then new.fVersion else old.fVersion := by
  show Fin.ofNat 16 (if σ.sees 0 then bytes new 0 else bytes old 0) = _
  split
  · exact Fin.ofNat_val_eq_self new.fVersion
  · exact Fin.ofNat_val_eq_self old.fVersion

theorem torn_rVersion : (σ.torn old new).rVersion =
    if σ.sees 17 then new.rVersion else old.rVersion := by
  show Fin.ofNat 16 (if σ.sees 17 then bytes new 17 else bytes old 17) = _
  split
  · exact Fin.ofNat_val_eq_self new.rVersion
  · exact Fin.ofNat_val_eq_self old.rVersion

/-- An update leaves the key alone, so a reader sees it whole. -/
theorem torn_key {k : Nat} (hk : k < 2 ^ 64) (hold : old.key = k) (hnew : new.key = k) :
    (σ.torn old new).key = k := by
  show (word fun j => if σ.sees (j + 1) then bytes new (j + 1) else bytes old (j + 1)) = k
  refine (word_congr fun j hj => ?_).trans (word_byte hk)
  rw [bytes_key new hj, bytes_key old hj, hold, hnew, ite_self]

theorem torn_value : (σ.torn old new).value = σ.mixed old.value new.value := by
  show (word fun j => if σ.sees (j + 9) then bytes new (j + 9) else bytes old (j + 9)) = _
  refine word_congr fun j hj => ?_
  rw [bytes_value new hj, bytes_value old hj]

theorem mixed_lt (v₁ v₂ : Nat) :
    ∀ j < 8, (if σ.sees (j + 9) then byte v₂ j else byte v₁ j) < 256 := by
  intro j _
  split
  · exact byte_lt v₂ j
  · exact byte_lt v₁ j

/-- What is read is the old value if all bytes that differ are its own. -/
theorem mixed_eq_left {v₁ v₂ : Nat} (hv : v₁ < 2 ^ 64) :
    σ.mixed v₁ v₂ = v₁ ↔ ∀ j < 8, byte v₁ j ≠ byte v₂ j → σ.sees (j + 9) = false := by
  conv_lhs => rhs; rw [← word_byte hv]
  unfold mixed
  rw [word_inj (σ.mixed_lt v₁ v₂) (fun j _ => byte_lt _ _)]
  refine forall₂_congr fun j _ => ?_
  cases σ.sees (j + 9) with
  | true =>
      refine ⟨fun h hne => absurd h.symm hne, fun h => ?_⟩
      by_contra hne
      exact Bool.noConfusion (h (Ne.symm hne))
  | false => exact ⟨fun _ _ => rfl, fun _ => rfl⟩

/-- And it is the new one if they are all of the new one. -/
theorem mixed_eq_right {v₁ v₂ : Nat} (hv : v₂ < 2 ^ 64) :
    σ.mixed v₁ v₂ = v₂ ↔ ∀ j < 8, byte v₁ j ≠ byte v₂ j → σ.sees (j + 9) = true := by
  conv_lhs => rhs; rw [← word_byte hv]
  unfold mixed
  rw [word_inj (σ.mixed_lt v₁ v₂) (fun j _ => byte_lt _ _)]
  refine forall₂_congr fun j _ => ?_
  cases σ.sees (j + 9) with
  | true => exact ⟨fun _ _ => rfl, fun _ => rfl⟩
  | false =>
      refine ⟨fun h hne => absurd h hne, fun h => ?_⟩
      by_contra hne
      exact Bool.noConfusion (h hne)

end Schedule

/-! ### The search that reads it -/

variable {page : LeafPage} {k i v₁ v₂ : Nat} {old r : LeafEntry}

/-- What a client searching for its key does next when `page` is what it read of the leaf
at `p`. -/
def answer (x : Tree.Local) (p : GlobalAddress) (cached : Option (Nat × Nat)) (page : LeafPage) :
    Option Tree.Pc :=
  match pageSearch (.leaf page) x.op.key cached.isSome with
  | .ok result => some (Tree.afterSearch x p (.leaf cached) result)
  | .error _ => none

/-- The loop of `leaf_page_search` passes over records that do not hold the key. -/
theorem leafPageSearch_skip {pre : List LeafEntry}
    (h : ∀ a ∈ pre, a.live = true → a.key ≠ k) (post : List LeafEntry) :
    leafPageSearch k (pre ++ post) = leafPageSearch k post := by
  induction pre with
  | nil => rfl
  | cons a pre ih =>
      have hmiss : ¬ (a.key = k ∧ a.value ≠ kValueNull ∧ a.fVersion = a.rVersion) := by
        intro ⟨hkey, hvalue, _⟩
        exact h a (List.mem_cons_self ..) (decide_eq_true hvalue) hkey
      rw [List.cons_append, leafPageSearch, if_neg hmiss]
      exact ih fun b hb => h b (List.mem_cons_of_mem _ hb)

/-- With a record of the key replaced by another one of the key, it is that one that counts. -/
theorem leafPageSearch_set (hok : page.Sound) (hold : page.records[i]? = some old)
    (hlive : old.live = true) (hkey : old.key = k) {t : LeafEntry} (ht : t.key = k) :
    leafPageSearch k (page.set i t).records =
      if t.fVersion = t.rVersion then t.value else kValueNull := by
  obtain ⟨pre, post, hsplit, -, hset⟩ := LeafPage.exists_of_getElem? hold
  have hdist := hok.distinct
  rw [hsplit, List.pairwise_append, List.pairwise_cons] at hdist
  obtain ⟨-, ⟨hpost, -⟩, hcross⟩ := hdist
  have hbefore : ∀ a ∈ pre, a.live = true → a.key ≠ k := fun a ha hl =>
    hkey ▸ hcross a ha old (List.mem_cons_self ..) hl hlive
  have hafter : ∀ a ∈ post, a.live = true → a.key ≠ k := fun a ha hl =>
    hkey ▸ (hpost a ha hlive hl).symm
  have hrest : leafPageSearch k post = kValueNull := by
    have h := leafPageSearch_skip hafter []
    rwa [List.append_nil] at h
  show leafPageSearch k (page.records.set i t) = _
  rw [hset, leafPageSearch_skip hbefore, leafPageSearch, hrest]
  by_cases hver : t.fVersion = t.rVersion
  · rw [if_pos hver]
    split
    · rfl
    · rename_i hmiss
      by_contra hne
      exact hmiss ⟨ht, Ne.symm hne, hver⟩
  · rw [if_neg hver, if_neg fun h => hver h.2.2]

/-- `page_search` of a key in the range of a leaf. -/
theorem pageSearch_leaf (hlevel : page.hdr.level = 0) (hleft : page.hdr.leftmostPtr = .Null)
    (hlow : page.hdr.lowest ≤ k) (hhigh : k < page.hdr.highest) (fromCache : Bool) :
    pageSearch (.leaf page) k fromCache =
      .ok (some ⟨true, page.hdr.level, .Null, .Null, leafPageSearch k page.records⟩) := by
  have hstale : ¬ (fromCache = true ∧ (k < page.hdr.lowest ∨ page.hdr.highest ≤ k)) := by
    rintro ⟨-, h | h⟩ <;> omega
  simp only [pageSearch]
  rw [if_neg (not_not_intro hleft), if_neg hstale, if_neg (not_not_intro hlevel),
    if_neg (Nat.not_le_of_lt hhigh), if_neg (Nat.not_lt_of_le hlow)]

/-- What an update in place writes, and over what. -/
theorem store_update (hok : page.Ok) (hhas : page.Has k v₁) {cached : Bool}
    (hstore : page.store k v₂ cached = .entry i r) :
    page.hdr.lowest ≤ k ∧ k < page.hdr.highest ∧
      ∃ old, page.records[i]? = some old ∧ old.live = true ∧ old.key = k ∧ old.value = v₁ ∧
        r = old.write k v₂ := by
  obtain ⟨x, hx, hlive, hkey, hvalue⟩ := hhas
  obtain ⟨hlow, hhigh⟩ := hok.within x hx hlive
  rw [hkey] at hlow hhigh
  refine ⟨hlow, hhigh, ?_⟩
  unfold LeafPage.store at hstore
  rw [if_neg (not_not_intro hok.level), if_neg (not_not_intro hok.consistent), if_neg (by omega),
    if_neg (by omega), if_neg (by omega)] at hstore
  cases hupdate : (scan k 0 page.records ⟨0, none, none⟩).updateIndex with
  | none => exact absurd hkey ((LeafPage.scan_none hupdate).1 x hx hlive)
  | some j =>
      simp only [hupdate] at hstore
      split at hstore
      · cases hstore
      · obtain ⟨n, old, hj, hold, hlive', hkey'⟩ := LeafPage.scan_update rfl hupdate
        rw [Nat.zero_add] at hj
        subst hj
        cases hstore
        obtain ⟨rfl, -⟩ := hok.only hx hlive hkey old (List.mem_of_getElem? hold) hlive' hkey'
        refine ⟨old, hold, hlive', hkey', hvalue, ?_⟩
        rw [List.getD_eq_getElem?_getD, hold]
        rfl

/-- The old version and the one after it differ, so a reader takes them for equal exactly when
it saw them from one side. -/
theorem versions_agree (σ : Schedule) (h : old.fVersion = old.rVersion) :
    (σ.torn old (old.write k v₂)).fVersion = (σ.torn old (old.write k v₂)).rVersion ↔
      σ.sees 0 = σ.sees 17 := by
  have hnext : old.fVersion + 1 ≠ old.fVersion := by
    generalize old.fVersion = f
    revert f
    decide
  rw [σ.torn_fVersion, σ.torn_rVersion, ← h]
  show (if σ.sees 0 then old.fVersion + 1 else old.fVersion) =
    (if σ.sees 17 then old.fVersion + 1 else old.fVersion) ↔ _
  cases σ.sees 0 with
  | true =>
      cases σ.sees 17 with
      | true => simp
      | false => simp [hnext]
  | false =>
      cases σ.sees 17 with
      | true => simp [hnext.symm]
      | false => simp

/-- The reader's answer is what it takes the torn entry for. -/
theorem answer_read (hok : page.Ok) (hhas : page.Has k v₁) {c : Bool}
    (hstore : page.store k v₂ c = .entry i r) (hk : k < 2 ^ 64) (σ : Schedule) {x : Tree.Local}
    (hx : x.op = .search k) (p : GlobalAddress) (cached : Option (Nat × Nat)) :
    answer x p cached (σ.read page i r) =
      if σ.sees 0 = σ.sees 17 ∧ σ.mixed v₁ v₂ ≠ kValueNull then
        some (.idle (some (.found (σ.mixed v₁ v₂))))
      else some (.idle (some .notFound)) := by
  obtain ⟨hlow, hhigh, old, hold, hlive, hkey, hvalue, rfl⟩ := store_update hok hhas hstore
  have hget : page.records.getD i .new = old := by
    rw [List.getD_eq_getElem?_getD, hold]
    rfl
  have htorn : (σ.torn old (old.write k v₂)).key = k := σ.torn_key hk hkey rfl
  have hsearch := leafPageSearch_set hok.toSound hold hlive hkey htorn
  have hmixed : (σ.torn old (old.write k v₂)).value = σ.mixed v₁ v₂ := by
    rw [σ.torn_value, hvalue]
    rfl
  simp only [versions_agree σ (hok.versions old (List.mem_of_getElem? hold)), hmixed] at hsearch
  have hlevel : (σ.read page i (old.write k v₂)).hdr.level = 0 := hok.level
  have hpage := pageSearch_leaf hlevel hok.leftmost hlow hhigh cached.isSome
  have hrecords : leafPageSearch k (σ.read page i (old.write k v₂)).records =
      if σ.sees 0 = σ.sees 17 then σ.mixed v₁ v₂ else kValueNull := by
    rw [Schedule.read, hget]
    exact hsearch
  rw [hrecords] at hpage
  generalize σ.mixed v₁ v₂ = value at hpage ⊢
  unfold answer
  rw [hx, Tree.Op.key, hpage]
  simp only [Tree.afterSearch, hx, if_true, ne_eq, not_true_eq_false, if_false]
  by_cases hver : σ.sees 0 = σ.sees 17
  · simp only [hver, if_true, true_and]
    split
    · rfl
    · rfl
  · simp only [hver, if_false, false_and, not_true_eq_false]

/--
**A search under an update in place answers with one of the two values exactly when it saw
the two versions, and the value, from one side of the write.**
-/
theorem torn_search_iff (hok : page.Ok) (hhas : page.Has k v₁) (hv : v₂ ≠ kValueNull) {c : Bool}
    (hstore : page.store k v₂ c = .entry i r) (hk : k < 2 ^ 64) (hv₁ : v₁ < 2 ^ 64)
    (hv₂ : v₂ < 2 ^ 64) (σ : Schedule) {x : Tree.Local} (hx : x.op = .search k)
    (p : GlobalAddress) (cached : Option (Nat × Nat)) :
    (answer x p cached (σ.read page i r) = some (.idle (some (.found v₁))) ∨
      answer x p cached (σ.read page i r) = some (.idle (some (.found v₂)))) ↔
      σ.Clean v₁ v₂ := by
  have hlive₁ : v₁ ≠ kValueNull := by
    obtain ⟨x, -, hlive, -, rfl⟩ := hhas
    exact of_decide_eq_true hlive
  rw [answer_read hok hhas hstore hk σ hx]
  unfold Schedule.Clean
  rw [← σ.mixed_eq_left hv₁, ← σ.mixed_eq_right hv₂]
  generalize σ.mixed v₁ v₂ = value
  split
  · rename_i hfound
    simp [hfound.1]
  · rename_i hlost
    constructor
    · rintro (h | h) <;> cases h
    · rintro ⟨hver, heq | heq⟩
      · exact absurd ⟨hver, heq ▸ hlive₁⟩ hlost
      · exact absurd ⟨hver, heq ▸ hv⟩ hlost

/-! ### A leaf with one key -/

/-- The key 5 with the value 7, in the first record. -/
def onePage : LeafPage := (LeafPage.new 0).set 0 (LeafEntry.new.write 5 7)

theorem onePage_ok : onePage.Ok where
  level := rfl
  leftmost := rfl
  consistent := rfl
  range := by decide
  versions := by decide
  within := by decide
  distinct := by
    refine List.pairwise_cons.mpr ⟨fun a ha _ hl => ?_, List.pairwise_replicate.mpr (Or.inr ?_)⟩
    · obtain rfl := (List.mem_replicate.mp ha).2
      cases hl
    · intro hl
      cases hl
  room := by decide

/-- The write of the value 8. -/
def update : LeafEntry := (LeafEntry.new.write 5 7).write 5 8

theorem onePage_store : onePage.store 5 8 false = .entry 0 update := rfl

theorem onePage_has : onePage.Has 5 7 :=
  ⟨LeafEntry.new.write 5 7, by decide, rfl, rfl, rfl⟩

/-- The reader is behind the write by the time it gets to byte `n`. -/
def Schedule.overtaken (n : Nat) : Schedule where
  progress j := if j < n then 0 else 18
  mono := by
    intro a b hab
    simp only
    split
    · exact Nat.zero_le _
    · rw [if_neg (by omega)]

/-- A client that searches for 5. -/
def reader : Tree.Local := ⟨.search 5, fun _ => .Null, .Null, .descend ⟨0, 8⟩ (.leaf none)⟩

/-- The write stops after its first byte until the reader is at byte `n`. -/
def Schedule.paused (n : Nat) : Schedule where
  progress j := if j < n then 1 else 18
  mono := by
    intro a b hab
    simp only
    split
    · split
      · exact Nat.le_refl _
      · decide
    · rw [if_neg (by omega)]

/-- The reader sees the first byte as it is written, the next four as they were and the rest as it
is written. -/
theorem torn_search_paused :
    answer reader ⟨0, 8⟩ none ((Schedule.paused 5).read onePage 0 update) =
        some (.idle (some (.found 7))) ∨
      answer reader ⟨0, 8⟩ none ((Schedule.paused 5).read onePage 0 update) =
        some (.idle (some (.found 8))) := by
  refine (torn_search_iff onePage_ok onePage_has (by decide) onePage_store (by decide)
    (by decide) (by decide) (Schedule.paused 5) rfl ⟨0, 8⟩ none).mpr ⟨rfl, Or.inr ?_⟩
  decide

/-- The entry is written between the read of its first byte and the read of the next: the key
is taken for absent. -/
theorem torn_search_miss : ∃ (page : LeafPage) (k v₁ v₂ i : Nat) (r : LeafEntry) (σ : Schedule)
    (x : Tree.Local) (p : GlobalAddress), page.Ok ∧ page.Has k v₁ ∧ v₂ ≠ kValueNull ∧
      page.store k v₂ false = .entry i r ∧ x.op = .search k ∧
      answer x p none (σ.read page i r) = some (.idle (some .notFound)) := by
  refine ⟨onePage, 5, 7, 8, 0, update, Schedule.overtaken 1, reader, ⟨0, 8⟩, onePage_ok, onePage_has,
    by decide, onePage_store, rfl, ?_⟩
  decide +kernel

end Dal.Torn
