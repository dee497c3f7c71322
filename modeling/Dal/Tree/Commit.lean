/-
The steps that change a page of the tree.

A page is only ever replaced by a client that holds its lock, so nobody else has a
write of it on its way, and what it held is what the client has read.  `Inv.store` is a
write that leaves the fences alone, `Inv.split` the write that links a new sibling.
Both come in two ways, executed at once or posted with the release of the lock;
`Rewrite` is what the two ways have in common.
-/
import Dal.Tree.Advance

namespace Dal.Tree

/-- Client `c` replaces page `p`, whose lock it holds, by `page`, now or by a posted write. -/
structure Rewrite (cfg : Config) (s s' : State) (c : Client) (p : GlobalAddress) (page : Page) :
    Prop where
  held : s.locks (cfg.lockAddr p) = .held c
  mem : ∀ a, a ≠ p → s'.mem a = s.mem a
  memAt : s'.mem p = s.mem p ∨ s'.mem p = some page
  content : s'.content cfg p = some page
  locks : ∀ k, k ≠ cfg.lockAddr p → s'.locks k = s.locks k
  posted : ∀ w, s'.locks (cfg.lockAddr p) = .posted (some w) → w = (p, page)
  rootPtr : s'.rootPtr = s.rootPtr
  directory : s'.directory = s.directory
  cache : s'.cache = s.cache
  messages : s'.messages = s.messages

section Rewrite

variable {cfg : Config} {s s' : State} {m m' : Chart} {c : Client} {p : GlobalAddress} {page : Page}

/-- The write is executed at once. -/
theorem Rewrite.sync (hheld : s.locks (cfg.lockAddr p) = .held c) (page : Page) (pc : Pc) :
    Rewrite cfg s ((s.write p page).setPc c pc) c p page where
  held := hheld
  mem a ha := Function.update_of_ne ha _ _
  memAt := Or.inr (Function.update_self ..)
  content := (content_of_held (s := (s.write p page).setPc c pc) hheld).trans
    (Function.update_self ..)
  locks _ _ := rfl
  posted w hw := by
    rw [show ((s.write p page).setPc c pc).locks = s.locks from rfl, hheld] at hw
    cases hw
  rootPtr := rfl
  directory := rfl
  cache := rfl
  messages := rfl

/-- The write is posted, and the write of 0 to the lock behind it. -/
theorem Rewrite.posting (hheld : s.locks (cfg.lockAddr p) = .held c) (page : Page) (pc : Pc) :
    Rewrite cfg s ((s.setLock (cfg.lockAddr p) (.posted (some (p, page)))).setPc c pc) c p page where
  held := hheld
  mem _ _ := rfl
  memAt := Or.inl rfl
  content := content_of_posted (Function.update_self ..)
  locks k hk := Function.update_of_ne hk _ _
  posted w hw := by
    have hself : ((s.setLock (cfg.lockAddr p) (.posted (some (p, page)))).setPc c pc).locks
        (cfg.lockAddr p) = .posted (some (p, page)) := Function.update_self ..
    rw [hself] at hw
    cases hw
    rfl
  rootPtr := rfl
  directory := rfl
  cache := rfl
  messages := rfl

/-- The other pages hold what they held. -/
theorem Rewrite.content_other (hw : Rewrite cfg s s' c p page) {a : GlobalAddress} (ha : a ≠ p) :
    s'.content cfg a = s.content cfg a := by
  by_cases hk : cfg.lockAddr a = cfg.lockAddr p
  · have hnow : s'.content cfg a = s'.mem a := content_of_not_posted fun q hq => by
      rw [hk] at hq
      cases hw.posted _ hq
      exact ha rfl
    rw [hnow, content_of_held (hk ▸ hw.held), hw.mem a ha]
  · exact content_congr (hw.mem a ha) fun w => by rw [hw.locks _ hk]

theorem Rewrite.others (hw : Rewrite cfg s s' c p page) {d : Client} {k : LockAddr} (hd : d ≠ c)
    (hk : s.locks k = .held d) : s'.locks k = .held d := by
  rw [hw.locks k, hk]
  rintro rfl
  rw [hw.held] at hk
  cases hk
  exact hd rfl

theorem Rewrite.mapped (hw : Rewrite cfg s s' c p page) {a : GlobalAddress}
    (ha : s.mem a ≠ none) : s'.mem a ≠ none := by
  by_cases hap : a = p
  · subst hap
    rcases hw.memAt with h | h <;> rw [h]
    · exact ha
    · exact Option.some_ne_none _
  · rwa [hw.mem a hap]

/-- Nobody else is using the page. -/
theorem Rewrite.untouched (hw : Rewrite cfg s s' c p page) {l x : Nat} (hp : m p = some (l, x))
    {a : GlobalAddress} {d : Client} (hd : d ≠ c)
    (ha : m a = none ∨ s.locks (cfg.lockAddr a) = .held d) : s'.mem a = s.mem a := by
  refine hw.mem a ?_
  rintro rfl
  rcases ha with ha | ha
  · rw [hp] at ha
    cases ha
  · rw [hw.held] at ha
    cases ha
    exact hd rfl

/-- The pages are still as they should be, if the new page and any added one are. -/
theorem Rewrite.shape (hw : Rewrite cfg s s' c p page) (h : Shape cfg s m) (hle : m.Le m')
    (hnull : m' .Null = none) {l x : Nat} (hp : m p = some (l, x)) (hok : page.Ok m' l x)
    (hadd : ∀ a l x, m' a = some (l, x) → m a = some (l, x) ∨
      a ≠ p ∧ ∃ q, s.mem a = some q ∧ q.Ok m' l x)
    (htiling : ∀ l, Tiling (Covers cfg s' m' l)) : Shape cfg s' m' := by
  refine ⟨hnull, fun a l' x' ha => ?_, fun k a q hq => ?_, htiling⟩
  · rcases hadd a l' x' ha with hma | ⟨hne, q, hq, hqok⟩
    · obtain ⟨q, hq, hqok⟩ := h.page a l' x' hma
      by_cases hap : a = p
      · subst hap
        rw [hp] at hma
        cases hma
        rcases hw.memAt with hmem | hmem
        · exact ⟨q, hmem.trans hq, hqok.mono hle⟩
        · exact ⟨page, hmem, hok⟩
      · exact ⟨q, (hw.mem a hap).trans hq, hqok.mono hle⟩
    · exact ⟨q, (hw.mem a hne).trans hq, hqok⟩
  · by_cases hk : k = cfg.lockAddr p
    · subst hk
      cases hw.posted _ hq
      exact ⟨rfl, l, x, hle _ _ hp, hok⟩
    · rw [hw.locks k hk] at hq
      obtain ⟨hlock, l', x', ha, hqok⟩ := h.posted k a q hq
      exact ⟨hlock, l', x', hle _ _ ha, hqok.mono hle⟩

end Rewrite

/-! ### What is held -/

section Holds

variable {cfg : Config} {s s' : State} {m m' : Chart} {p : GlobalAddress} {k v : Nat}
  {committed : Option Op}

/-- Only one page can hold a key. -/
theorem Shape.has_home (h : Shape cfg s m) {l x : Nat} {page q : Page} {a : GlobalAddress}
    {e : Nat × Nat} (hp : m p = some (l, x)) (hpage : s.content cfg p = some page) (hl : l = 0)
    (hx : x ≤ k) (hk : k < page.hdr.highest) (ha : m a = some e) (hq : s.content cfg a = some q)
    (hhas : q.Has k v) : a = p := by
  obtain ⟨q', hq', hok⟩ := h.content_ok (l := e.1) (x := e.2) ha
  rw [hq] at hq'
  cases hq'
  obtain ⟨hl', hx', hk'⟩ := hok.has_within hhas
  subst hl
  refine (h.tiling 0).home ⟨?_, q, hq, rfl⟩ ⟨hp, page, hpage, rfl⟩ hx' hk' hx hk
  rw [ha, ← hl']

/-- An operation's key is in one page, so carrying it out there is carrying it out. -/
theorem holds_commit {page : Page} (hp : m p ≠ none) (hpage : s.content cfg p = some page)
    (hle : m.Le m') (hother : ∀ a e, a ≠ p → m a = some e → s'.content cfg a = s.content cfg a)
    (helse : ∀ op a e q v, committed = some op → a ≠ p → m a = some e →
      s.content cfg a = some q → ¬ q.Has op.key v)
    (hhere : ∀ k v, (∃ a e q, m' a = some e ∧ (a = p ∨ m a = none) ∧ s'.content cfg a = some q ∧
      q.Has k v) ↔ Effect committed (fun k v => page.Has k v) k v) :
    Holds cfg s' m' k v ↔ Effect committed (Holds cfg s m) k v := by
  obtain ⟨e₀, he₀⟩ := Option.ne_none_iff_exists'.mp hp
  have hsplit : Holds cfg s' m' k v ↔ Effect committed (fun k v => page.Has k v) k v ∨
      ∃ a e q, a ≠ p ∧ m a = some e ∧ s.content cfg a = some q ∧ q.Has k v := by
    rw [← hhere]
    constructor
    · rintro ⟨a, e, q, ha, hq, hhas⟩
      by_cases hap : a = p ∨ m a = none
      · exact Or.inl ⟨a, e, q, ha, hap, hq, hhas⟩
      · obtain ⟨hne, hma⟩ := not_or.mp hap
        obtain ⟨e', he'⟩ := Option.ne_none_iff_exists'.mp hma
        exact Or.inr ⟨a, e', q, hne, he', hother a e' hne he' ▸ hq, hhas⟩
    · rintro (⟨a, e, q, ha, -, hq, hhas⟩ | ⟨a, e, q, hne, ha, hq, hhas⟩)
      · exact ⟨a, e, q, ha, hq, hhas⟩
      · exact ⟨a, e, q, hle _ _ ha, (hother a e hne ha).trans hq, hhas⟩
  have hbefore : ∀ k v, Holds cfg s m k v ↔ page.Has k v ∨
      ∃ a e q, a ≠ p ∧ m a = some e ∧ s.content cfg a = some q ∧ q.Has k v := by
    intro k v
    constructor
    · rintro ⟨a, e, q, ha, hq, hhas⟩
      by_cases hap : a = p
      · subst hap
        rw [hpage] at hq
        cases hq
        exact Or.inl hhas
      · exact Or.inr ⟨a, e, q, hap, ha, hq, hhas⟩
    · rintro (hhas | ⟨a, e, q, -, ha, hq, hhas⟩)
      · exact ⟨p, e₀, page, he₀, hpage, hhas⟩
      · exact ⟨a, e, q, ha, hq, hhas⟩
  rw [hsplit]
  cases committed with
  | none => exact (hbefore k v).symm
  | some op =>
      simp only [Effect]
      split
      · rename_i hk
        subst hk
        refine or_iff_left ?_
        rintro ⟨a, e, q, hne, ha, hq, hhas⟩
        exact helse op a e q v rfl hne ha hq hhas
      · exact (hbefore k v).symm

end Holds

/-! ### The invariant -/

/-- A key that separates pages one level below `l`, for all that client `c` knows. -/
def Known (s : State) (c : Client) (l : Nat) (page : Page) (k : Nat) : Prop :=
  l = 0 ∨ (∃ r ∈ page.separators, r.key = k) ∨
    ∃ d, (s.clients c).pc.pending = some d ∧ d.level = l ∧ d.key = k

section Inv

variable {cfg : Config} {s s' : State} {m m' : Chart} {c : Client} {p : GlobalAddress}
  {page page' : Page} {l x : Nat}

/-- Two clients do not post the same key. -/
theorem Inv.pending_unique (h : Inv cfg s m) {c e : Client} {d d' : Pending}
    (hc : (s.clients c).pc.pending = some d) (he : (s.clients e).pc.pending = some d')
    (hlevel : d.level = d'.level) (hkey : d.key = d'.key) : c = e := by
  obtain ⟨below, hl, hsib, -⟩ := h.pending c d hc
  obtain ⟨below', hl', hsib', -⟩ := h.pending e d' he
  have hb : below = below' := by omega
  subst hb
  rw [← hkey] at hsib'
  exact h.pendingOnce c e d d' hc he (h.shape.inj hsib hsib')

theorem Inv.known_ne (h : Inv cfg s m) (hp : m p = some (l, x)) (hpage : s.content cfg p = some page)
    {e : Client} {d : Pending} (he : (s.clients e).pc.pending = some d) (hne : e ≠ c)
    (hl : d.level = l) {k : Nat} (hk : Known s c l page k) : k ≠ d.key := by
  subst hl
  obtain ⟨below, hlevel, -, -, -, -, hrec⟩ := h.pending e d he
  rcases hk with hzero | ⟨r, hr, rfl⟩ | ⟨d', hd', hl', rfl⟩
  · omega
  · exact hrec p x page hp hpage r hr
  · exact fun hkey => hne (h.pending_unique he hd' hl'.symm hkey.symm)

/-- Replacing a page keeps the invariant, if what it brings in is known and no other
client is about to post it. -/
theorem Inv.rewrite (h : Inv cfg s m) (hw : Rewrite cfg s s' c p page') {x' : Local}
    (hclients : s'.clients = Function.update s.clients c x') (hle : m.Le m')
    (hnull : m' .Null = none) (hp : m p = some (l, x)) (hpage : s.mem p = some page)
    (hok : page'.Ok m' l x)
    (hadd : ∀ a i k, m' a = some (i, k) → m a = some (i, k) ∨
      a ≠ p ∧ (s.clients c).pc.fresh = some a ∧ i = l ∧ Known s c l page k ∧
        ∃ q, s.mem a = some q ∧ q.Ok m' i k ∧ ∀ r ∈ q.separators, Known s c l page r.key)
    (hseparators : ∀ r ∈ page'.separators, Known s c l page r.key)
    (htiling : ∀ l, Tiling (Covers cfg s' m' l)) (hvalid : x'.op.valid = true)
    (hpc : PcOk m' (s'.directory c.node).enableCache s'.mem x' x'.pc)
    (hheld : ∀ k, x'.pc.holds cfg = some k → s'.locks k = .held c) (hfresh : x'.pc.fresh = none)
    (hpending : ∀ d, x'.pc.pending = some d → PendingOk cfg s' m' d ∧ m d.sibling = none) :
    Inv cfg s' m' := by
  have hcontent : s.content cfg p = some page := (content_of_held hw.held).trans hpage
  have hself : s'.clients c = x' := by rw [hclients, Function.update_self]
  have hother : ∀ d, d ≠ c → s'.clients d = s.clients d := fun d hd => by
    rw [hclients, Function.update_of_ne hd]
  have hshape : Shape cfg s' m' := hw.shape h.shape hle hnull hp hok (fun a i k ha => by
    rcases hadd a i k ha with hma | ⟨hne, -, -, -, q, hq, hqok, -⟩
    · exact Or.inl hma
    · exact Or.inr ⟨hne, q, hq, hqok⟩) htiling
  have hclientsOk : ClientsOk cfg s' m' := by
    refine h.toClientsOk.step hle hnull c hclients (fun a ha => hw.mapped ha)
      (fun a d hd _ ha => hw.untouched hp hd ha) (fun a hma hm' => ?_)
      (fun d k hd hk => hw.others hd hk) (fun n hn => by rwa [hw.directory]) hvalid hpc hheld
      (fun a ha => by rw [hfresh] at ha; cases ha)
    obtain ⟨⟨i, k⟩, hik⟩ := Option.ne_none_iff_exists'.mp hm'
    rcases hadd a i k hik with hma' | ⟨-, hfr, -⟩
    · rw [hma] at hma'
      cases hma'
    · exact hfr
  refine ⟨hclientsOk, hshape, ?_, fun n => ?_, fun n a i ha => ?_, fun n e q he hq => ?_,
    fun e d he => ?_, fun e f d d' he hf hsib => ?_⟩
  · obtain ⟨top, htop, hmax⟩ := h.top
    refine ⟨top, hw.rootPtr ▸ hle _ _ htop, fun a i k ha => ?_⟩
    rcases hadd a i k ha with hma | ⟨-, -, hi, -⟩
    · exact hmax a i k hma
    · exact hi ▸ hmax p l x hp
  · rw [hw.directory]
    refine ⟨fun hne => ?_, (h.directory n).enabled⟩
    obtain ⟨i, hi, hroot⟩ := (h.directory n).root hne
    exact ⟨i, hi, hle _ _ hroot⟩
  · rw [hw.messages] at ha
    exact hle _ _ (h.messages n a i ha)
  · rw [hw.cache] at he
    obtain ⟨hqok, hstart, hlast⟩ := h.cache n e q he hq
    exact ⟨hqok.mono hle, hstart, hlast⟩
  · by_cases hec : e = c
    · subst hec
      rw [hself] at he
      exact (hpending d he).1
    · rw [hother e hec] at he
      obtain ⟨below, hlevel, hsib, hlow, htop, hnew, hrec⟩ := h.pending e d he
      have hknown : ∀ k, d.level = l → Known s c l page k → k ≠ d.key := fun k hl hk =>
        h.known_ne hp hcontent he hec hl hk
      refine ⟨below, hlevel, hle _ _ hsib, hlow, htop, fun a ha => ?_, fun a k q ha hq => ?_⟩
      · rcases hadd a _ _ ha with hma | ⟨-, -, hi, hk, -⟩
        · exact hnew a hma
        · exact hknown _ hi hk rfl
      · by_cases hap : a = p
        · subst hap
          rw [hw.content] at hq
          cases hq
          rw [hle _ _ hp] at ha
          cases ha
          exact fun r hr => hknown _ rfl (hseparators r hr)
        · rw [hw.content_other hap] at hq
          rcases hadd a _ _ ha with hma | ⟨-, hfr, hi, -, q', hq', -, hknow⟩
          · exact hrec a k q hma hq
          · rw [content_of_not_posted, hq'] at hq
            · cases hq
              exact fun r hr => hknown _ hi (hknow r hr)
            · intro q hpost
              obtain ⟨-, i, k, hma, -⟩ := h.shape.posted _ _ _ hpost
              rw [(h.fresh c a hfr).1] at hma
              cases hma
  · have hone : ∀ e d d', e ≠ c → (s.clients e).pc.pending = some d →
        x'.pc.pending = some d' → d.sibling ≠ d'.sibling := by
      intro e d d' _ hd hd' hsib
      obtain ⟨below, -, hm, -⟩ := h.pending e d hd
      rw [hsib, (hpending d' hd').2] at hm
      cases hm
    by_cases hec : e = c <;> by_cases hfc : f = c
    · rw [hec, hfc]
    · subst hec
      rw [hself] at he
      rw [hother f hfc] at hf
      exact absurd hsib.symm (hone f d' d hfc hf he)
    · subst hfc
      rw [hself] at hf
      rw [hother e hec] at he
      exact absurd hsib (hone e d d' hec he hf)
    · rw [hother e hec] at he
      rw [hother f hfc] at hf
      exact h.pendingOnce e f d d' he hf hsib

/-- Separators that are in the tree stay there. -/
theorem Rewrite.keeps (hw : Rewrite cfg s s' c p page') (hle : m.Le m') (hp : m p = some (l, x))
    (hpage : s.mem p = some page)
    (hpoints : ∀ y a, page.Points y a → page'.Points y a ∨
      ∃ b k q, m' b = some (l, k) ∧ s'.content cfg b = some q ∧ q.Points y a)
    {i y : Nat} {a : GlobalAddress} (h : Posted cfg s m i y a) : Posted cfg s' m' i y a := by
  obtain ⟨u, z, q, hu, hq, hpt⟩ := h
  by_cases hup : u = p
  · subst hup
    rw [content_of_held hw.held, hpage] at hq
    cases hq
    rw [hp] at hu
    cases hu
    rcases hpoints y a hpt with hpt | ⟨b, k, q, hb, hq, hpt⟩
    · exact ⟨u, x, page', hle _ _ hp, hw.content, hpt⟩
    · exact ⟨b, k, q, hb, hq, hpt⟩
  · exact ⟨u, z, q, hle _ _ hu, (hw.content_other hup).trans hq, hpt⟩

/-! ### Writing a page that was not split -/

/-- The write of a page whose fences stay, and which leads to what it led to. -/
theorem Inv.store (h : Inv cfg s m) {task : Task} {mode : Release} {committed : Option Op}
    (hpc : (s.clients c).pc = .loaded p task page) (hp : m p = some (l, x)) (hok : page'.Ok m l x)
    (hhighest : page'.hdr.highest = page.hdr.highest)
    (hseparators : ∀ r ∈ page'.separators, Known s c l page r.key)
    (hpoints : ∀ y a, page.Points y a → page'.Points y a)
    (hposts : ∀ d, task.pending = some d → d.level = l ∧ page'.Points d.key d.sibling)
    (hcommitted : ∀ op, committed = some op → l = 0 ∧ x ≤ op.key ∧ op.key < page.hdr.highest)
    (hhas : ∀ k v, page'.Has k v ↔ Effect committed (fun k v => page.Has k v) k v) :
    Advance cfg s m ((s.write p page').setPc c (.unlock p mode .done)) m committed := by
  have hheld : s.locks (cfg.lockAddr p) = .held c := h.held c _ (by rw [hpc]; rfl)
  have htask := h.pc c
  rw [hpc] at htask
  obtain ⟨htask, hpage⟩ := htask
  have hcontent : s.content cfg p = some page := (content_of_held hheld).trans hpage
  have hw := Rewrite.sync hheld page' (.unlock p mode .done)
  have hother : ∀ d, d ≠ c → ((s.write p page').setPc c (.unlock p mode .done)).clients d =
      s.clients d := fun d hd => Function.update_of_ne hd _ _
  refine ⟨Chart.Le.refl m, ?_, fun k v => ?_, ?_, fun e d he => ?_, fun a i k ha => Or.inl ha⟩
  · refine h.rewrite hw rfl (Chart.Le.refl m) h.shape.null hp hpage hok
      (fun a i k ha => Or.inl ha) hseparators (fun i => ?_) (h.valid c) htask.updates
      (fun k hk => ?_) rfl (fun d hd => by cases hd)
    · refine (h.shape.tiling i).congr fun a y z => and_congr_right fun ha => ?_
      by_cases hap : a = p
      · subst hap
        simp only [hw.content, hcontent, Option.some_inj, exists_eq_left', hhighest]
      · rw [hw.content_other hap]
    · cases hk
      exact hheld
  · refine holds_commit (by rw [hp]; simp) hcontent (Chart.Le.refl m)
      (fun a e hap _ => hw.content_other hap) (fun op a e q v hop hap ha hq hhas' => ?_)
      fun k v => ?_
    · obtain ⟨hl, hx, hk⟩ := hcommitted op hop
      exact hap (h.shape.has_home hp hcontent hl hx hk ha hq hhas')
    · rw [← hhas]
      constructor
      · rintro ⟨a, e, q, ha, rfl | hnone, hq, hhas'⟩
        · rw [hw.content] at hq
          cases hq
          exact hhas'
        · rw [hnone] at ha
          cases ha
      · exact fun hhas' => ⟨p, (l, x), page', hp, Or.inl rfl, hw.content, hhas'⟩
  · exact fun i y a => hw.keeps (Chart.Le.refl m) hp hpage fun y a hpt => Or.inl (hpoints y a hpt)
  · by_cases hec : e = c
    · subst hec
      obtain ⟨below, hlevel, -⟩ := h.pending e d he
      rw [hpc] at he
      obtain ⟨hl, hpt⟩ := hposts d he
      rw [hlevel] at hl
      exact Or.inr (Or.inl ⟨below, hlevel, p, x, page', hl ▸ hp, hw.content, hpt⟩)
    · rw [hother e hec]
      exact Or.inl he

/-! ### Writing a page that was split -/

/-- What a split of a page of level `l` that begins at `x` makes of it, `left` being still
without its link to `right`. -/
structure PageSplit (m : Chart) (l x : Nat) (page left right : Page) (k : Nat) : Prop where
  inside : x < k ∧ k < page.hdr.highest
  linked : ∀ sibling m', m.Le m' → m' sibling = some (l, k) → (left.link sibling).Ok m' l x
  leftHighest : left.hdr.highest = k
  rightOk : right.Ok m l k
  rightHighest : right.hdr.highest = page.hdr.highest

theorem PageSplit.of {page left right : Page} {k : Nat} (hok : page.Ok m l x)
    (hinside : page.hdr.lowest < k ∧ k < page.hdr.highest)
    (hleft : left.hdr = { page.hdr with highest := k }) (hlevel : right.hdr.level = page.hdr.level)
    (hlowest : right.hdr.lowest = k) (hhighest : right.hdr.highest = page.hdr.highest)
    (hsibling : right.hdr.siblingPtr = page.hdr.siblingPtr)
    (hleftBody : ∀ sibling m', m.Le m' → (left.link sibling).BodyOk m' l)
    (hrightBody : right.BodyOk m l) : PageSplit m l x page left right k := by
  have htop := hok.top
  refine ⟨hok.lowest ▸ hinside, fun sibling m' hle hm' => ?_, by rw [hleft],
    ⟨hlevel.trans hok.level, hlowest, hhighest ▸ htop, ?_, ?_, hrightBody⟩, hhighest⟩
  · have hhdr : (left.link sibling).hdr = { page.hdr with highest := k, siblingPtr := sibling } := by
      rw [Page.link_hdr, hleft]
    refine ⟨?_, ?_, ?_, ?_, ?_, hleftBody sibling m' hle⟩ <;> rw [hhdr]
    · exact hok.level
    · exact hok.lowest
    · exact Nat.le_of_lt (Nat.lt_of_lt_of_le hinside.2 htop)
    · exact fun hk => absurd (Nat.lt_of_lt_of_le hinside.2 htop) (Nat.not_lt.mpr (Nat.le_of_eq hk.symm))
    · exact fun _ => hm'
  · rw [hhighest, hsibling]
    exact hok.last
  · rw [hhighest, hsibling]
    exact hok.next

/-- The halves of a leaf; `mid` is the page with the new record already in it. -/
theorem pageSplit_leaf {lpage mid left right : LeafPage} {k : Nat}
    (hok : (Page.leaf lpage).Ok m l x) (hmid : mid.hdr = lpage.hdr)
    (hsplit : LeafPage.IsSplit mid left right k) :
    PageSplit m l x (.leaf lpage) (.leaf left) (.leaf right) k := by
  have hleaf : lpage.Ok := hok.body
  obtain ⟨hinside, hleft, hright, hleftHdr, hlowest, hhighest, hsibling, -⟩ := hsplit
  rw [hmid] at hinside hleftHdr hhighest hsibling
  exact .of hok hinside hleftHdr (hright.level.trans hleaf.level.symm) hlowest hhighest hsibling
    (fun sibling _ _ => hleft.link sibling) hright

/-- The halves of an internal page. -/
theorem pageSplit_internal {ipage left right : InternalPage} {k below : Nat}
    {gained : InternalEntry} (hok : (Page.internal ipage).Ok m (below + 1) x)
    (hsplit : InternalPage.IsSplit m ipage left right below k gained) :
    PageSplit m (below + 1) x (.internal ipage) (.internal left) (.internal right) k :=
  .of hok hsplit.inside hsplit.leftHdr (hsplit.rightOk.level.trans hok.level.symm)
    hsplit.rightLowest hsplit.rightHighest hsplit.rightSibling
    (fun sibling _ hle => ⟨below, rfl, (hsplit.leftOk.mono hle).link sibling⟩)
    ⟨below, rfl, hsplit.rightOk⟩

/-- A page ends where the new sibling begins, and the sibling where the page ended. -/
theorem tiling_split (h : Shape cfg s m) (hw : Rewrite cfg s s' c p page') {sibling : GlobalAddress}
    {right : Page} {k : Nat} (hp : m p = some (l, x)) (hpage : s.mem p = some page)
    (hinside : x < k ∧ k < page.hdr.highest) (hhighest : page'.hdr.highest = k)
    (hfresh : m sibling = none) (hright : s'.content cfg sibling = some right)
    (hrightHighest : right.hdr.highest = page.hdr.highest) (i : Nat) :
    Tiling (Covers cfg s' (m.add sibling l k) i) := by
  have hne : sibling ≠ p := by
    rintro rfl
    rw [hp] at hfresh
    cases hfresh
  have hcontent : s.content cfg p = some page := (content_of_held hw.held).trans hpage
  by_cases hi : i = l
  · subst hi
    refine (h.tiling i).split (a := p) (b := sibling) ⟨hp, page, hcontent, rfl⟩ ?_ hinside.1
      hinside.2 fun a y z => ?_
    · rintro y z ⟨ha, -⟩
      rw [hfresh] at ha
      cases ha
    by_cases hap : a = p
    · subst hap
      simp only [Covers, m.add_other i k hne.symm, hp, hw.content, Option.some_inj, Prod.mk.injEq,
        true_and, exists_eq_left', hhighest, ne_eq, not_true_eq_false, false_and, or_false,
        hne.symm]
      exact and_congr eq_comm eq_comm
    · by_cases has : a = sibling
      · subst has
        simp only [Covers, m.add_self, hright, Option.some_inj, Prod.mk.injEq, true_and,
          exists_eq_left', hrightHighest, hap, false_and, false_or, hfresh]
        constructor
        · rintro ⟨rfl, rfl⟩
          exact Or.inl ⟨rfl, rfl⟩
        · rintro (⟨rfl, rfl⟩ | ⟨-, hnone, -⟩)
          · exact ⟨rfl, rfl⟩
          · cases hnone
      · simp only [Covers, m.add_other i k has, hw.content_other hap, hap, has, false_and, false_or,
          ne_eq, not_false_eq_true, true_and]
  · refine (h.tiling i).congr fun a y z => ?_
    by_cases has : a = sibling
    · subst has
      simp only [Covers, m.add_self, hfresh, Option.some_inj, Prod.mk.injEq]
      constructor
      · rintro ⟨⟨hl, -⟩, -⟩
        exact absurd hl.symm hi
      · rintro ⟨hnone, -⟩
        cases hnone
    · simp only [Covers, m.add_other l k has]
      refine and_congr_right fun ha => ?_
      by_cases hap : a = p
      · subst hap
        rw [hp] at ha
        cases ha
        exact absurd rfl hi
      · rw [hw.content_other hap]

/-- Where a page is about to be split, no page one level up begins or has a separator. -/
theorem Shape.unposted (h : Shape cfg s m) {below k : Nat} {a : GlobalAddress} {y z : Nat}
    (ha : Covers cfg s m below a y z) (hk : y < k ∧ k < z) :
    Unposted cfg s m (below + 1) k := by
  have hnone : ∀ b, m b ≠ some (below, k) := by
    intro b hb
    obtain ⟨w, hcov⟩ := h.covers hb
    exact (h.tiling below).not_inside ha hcov hk.1 hk.2
  refine ⟨fun b hb => ?_, fun b u q hb hq => ?_⟩
  · obtain ⟨q, hq, hok⟩ := h.content_ok hb
    obtain ⟨ipage, rfl, hint⟩ := hok.internal
    have hlow : ipage.hdr.lowest = k := hok.lowest
    exact hnone _ (hlow ▸ hint.leftmost)
  · obtain ⟨q', hq', hok⟩ := h.content_ok hb
    rw [hq] at hq'
    cases hq'
    obtain ⟨ipage, rfl, hint⟩ := hok.internal
    rintro r hr rfl
    exact hnone _ (hint.child r hr)

/-- The write of a split page, which links the new sibling. -/
theorem Inv.split (h : Inv cfg s m) {task : Task} {sibling : GlobalAddress} {left right : Page}
    {k : Nat} {committed : Option Op} {x' : Local}
    (hw : Rewrite cfg s s' c p (left.link sibling))
    (hclients : s'.clients = Function.update s.clients c x')
    (hpc : (s.clients c).pc = .linked p task page sibling) (hp : m p = some (l, x))
    (hsplit : PageSplit m l x page left right k) (hright : s.mem sibling = some right)
    (hknown : Known s c l page k)
    (hseparators : ∀ r, r ∈ left.separators ∨ r ∈ right.separators → Known s c l page r.key)
    (hpoints : ∀ y a, page.Points y a → left.Points y a ∨ right.Points y a)
    (hposts : ∀ d, task.pending = some d → d.level = l ∧
      (left.Points d.key d.sibling ∨ right.Points d.key d.sibling))
    (hcommitted : ∀ op, committed = some op → l = 0 ∧ x ≤ op.key ∧ op.key < page.hdr.highest)
    (hhas : ∀ k v, left.Has k v ∨ right.Has k v ↔ Effect committed (fun k v => page.Has k v) k v)
    (hvalid : x'.op.valid = true)
    (hpcOk : PcOk (m.add sibling l k) (s'.directory c.node).enableCache s'.mem x' x'.pc)
    (hheld : ∀ k, x'.pc.holds cfg = some k → s'.locks k = .held c) (hfresh : x'.pc.fresh = none)
    (hpending : x'.pc.pending = some ⟨sibling, k, l + 1⟩ ∨ ∃ why, x'.pc = .failed why) :
    Advance cfg s m s' (m.add sibling l k) committed := by
  have hpage : s.mem p = some page := by
    have := h.pc c
    rw [hpc] at this
    exact this.2.1
  have hcontent : s.content cfg p = some page := (content_of_held hw.held).trans hpage
  obtain ⟨hfr, -, hnull⟩ := h.fresh c sibling (by rw [hpc]; rfl)
  have hne : sibling ≠ p := by
    rintro rfl
    rw [hp] at hfr
    cases hfr
  have hle : m.Le (m.add sibling l k) := Chart.le_add l k hfr
  have hself : s'.clients c = x' := by rw [hclients, Function.update_self]
  have hother : ∀ d, d ≠ c → s'.clients d = s.clients d := fun d hd => by
    rw [hclients, Function.update_of_ne hd]
  have hcontentSibling : s'.content cfg sibling = some right := by
    rw [hw.content_other hne, content_of_not_posted, hright]
    intro q hq
    obtain ⟨-, i, y, hm, -⟩ := h.shape.posted _ _ _ hq
    rw [hfr] at hm
    cases hm
  have hrightOk : right.Ok (m.add sibling l k) l k := hsplit.rightOk.mono hle
  refine ⟨hle, ?_, fun k' v => ?_, ?_, fun e d he => ?_, fun a i y ha => ?_⟩
  · refine h.rewrite hw hclients hle ?_ hp hpage
      (hsplit.linked sibling _ hle (m.add_self sibling l k)) (fun a i y ha => ?_)
      (fun r hr => hseparators r (Or.inl ((Page.link_separators sibling left) ▸ hr)))
      (tiling_split h.shape hw hp hpage hsplit.inside (by simp [hsplit.leftHighest]) hfr
        hcontentSibling hsplit.rightHighest) hvalid hpcOk hheld hfresh fun d hd => ?_
    · rw [m.add_other l k (Ne.symm hnull)]
      exact h.shape.null
    · rcases Chart.add_cases ha with hma | ⟨rfl, heq⟩
      · exact Or.inl hma
      · cases heq
        exact Or.inr ⟨hne, by rw [hpc]; rfl, rfl, hknown, right, hright, hrightOk,
          fun r hr => hseparators r (Or.inr hr)⟩
    · rcases hpending with heq | ⟨why, hwhy⟩
      · rw [heq] at hd
        cases hd
        obtain ⟨hnew, hrec⟩ := h.shape.unposted
          (show Covers cfg s m l p x page.hdr.highest from ⟨hp, page, hcontent, rfl⟩) hsplit.inside
        have htop := (h.shape.content_ok hp).elim fun q hq => by
          rw [hcontent] at hq
          cases hq.1
          exact hq.2.top
        refine ⟨⟨l, rfl, m.add_self .., ?_, ?_, fun a ha => ?_, fun a y q ha hq => ?_⟩, hfr⟩
        · exact Nat.lt_of_le_of_lt (Nat.zero_le _) hsplit.inside.1
        · exact Nat.lt_of_lt_of_le hsplit.inside.2 htop
        · rcases Chart.add_cases ha with hma | ⟨-, heq⟩
          · exact hnew a hma
          · exact absurd (congrArg Prod.fst heq) (Nat.succ_ne_self l)
        · rcases Chart.add_cases ha with hma | ⟨-, heq⟩
          · refine hrec a y q hma ?_
            rwa [hw.content_other] at hq
            rintro rfl
            rw [hp] at hma
            cases hma
          · exact absurd (congrArg Prod.fst heq) (Nat.succ_ne_self l)
      · rw [hwhy] at hd
        cases hd
  · refine holds_commit (by rw [hp]; simp) hcontent hle
      (fun a e hap _ => hw.content_other hap) (fun op a e q v hop hap ha hq hhas' => ?_)
      fun k' v => ?_
    · obtain ⟨hl, hx, hk⟩ := hcommitted op hop
      exact hap (h.shape.has_home hp hcontent hl hx hk ha hq hhas')
    · rw [← hhas]
      constructor
      · rintro ⟨a, ⟨i, y⟩, q, ha, rfl | hnone, hq, hhas'⟩
        · rw [hw.content] at hq
          cases hq
          exact Or.inl ((Page.link_has sibling left k' v).mp hhas')
        · rcases Chart.add_cases ha with hma | ⟨rfl, -⟩
          · rw [hnone] at hma
            cases hma
          · rw [hcontentSibling] at hq
            cases hq
            exact Or.inr hhas'
      · rintro (hhas' | hhas')
        · exact ⟨p, (l, x), _, hle _ _ hp, Or.inl rfl, hw.content,
            (Page.link_has sibling left k' v).mpr hhas'⟩
        · exact ⟨sibling, (l, k), right, m.add_self .., Or.inr hfr, hcontentSibling, hhas'⟩
  · refine fun i y a => hw.keeps hle hp hpage fun y a hpt => ?_
    rcases hpoints y a hpt with hpt | hpt
    · exact Or.inl ((Page.link_points sibling left y a).mpr hpt)
    · exact Or.inr ⟨sibling, k, right, m.add_self .., hcontentSibling, hpt⟩
  · by_cases hec : e = c
    · subst hec
      obtain ⟨below, hlevel, -⟩ := h.pending e d he
      rw [hpc] at he
      obtain ⟨hl, hpt⟩ := hposts d he
      rw [hlevel] at hl
      refine Or.inr (Or.inl ⟨below, hlevel, ?_⟩)
      rcases hpt with hpt | hpt
      · exact ⟨p, x, _, hl ▸ hle _ _ hp, hw.content, (Page.link_points sibling left _ _).mpr hpt⟩
      · exact ⟨sibling, k, right, hl ▸ m.add_self .., hcontentSibling, hpt⟩
    · rw [hother e hec]
      exact Or.inl he
  · rcases Chart.add_cases ha with hma | ⟨rfl, heq⟩
    · exact Or.inl hma
    · cases heq
      refine Or.inr (Or.inr ⟨c, ?_⟩)
      rw [hself]
      exact hpending

end Inv

/-! ### A new root -/

section Grow

variable {cfg : Config} {s : State} {m : Chart}

/-- The page of the new root, once its children are pages of the tree. -/
theorem newRoot_ok {p sibling : GlobalAddress} {k level : Nat} (hp : m p = some (level, kKeyMin))
    (hsibling : m sibling = some (level, k)) (hk : kKeyMin < k ∧ k < kKeyMax) :
    (newRoot p k sibling (level + 1)).Ok m (level + 1) kKeyMin where
  level := rfl
  lowest := rfl
  top := Nat.le_refl _
  last _ := rfl
  next hne := absurd rfl hne
  body := by
    refine ⟨level, rfl, rfl, rfl, show kKeyMin < kKeyMax by decide, hp, ?_, ?_,
      List.pairwise_singleton .., by simp [InternalPage.setConsistent],
      by simp [InternalPage.setConsistent, kInternalCardinality]⟩
    · intro r hr
      cases List.mem_singleton.mp hr
      exact hsibling
    · intro r hr
      cases List.mem_singleton.mp hr
      exact hk

/-- Client `c` is about to put `root` above the old root `p`, from which `sibling` was split off
at `k`. -/
structure Installing (cfg : Config) (s : State) (m : Chart) (c : Client)
    (p sibling root : GlobalAddress) (task : Task) (k : Nat) : Prop where
  pc : (s.clients c).pc = .casRoot p task k sibling root
  swaps : s.rootPtr = (s.clients c).root
  unlinked : m root = none
  notNull : root ≠ .Null
  page : m p = some (task.level, kKeyMin)
  sibling_mem : m sibling = some (task.level, k)
  inside : kKeyMin < k ∧ k < kKeyMax
  written : s.mem root = some (newRoot p k sibling (task.level + 1))
  highest : ∀ a i z, m a = some (i, z) → i ≤ task.level

variable {c : Client} {p sibling root : GlobalAddress} {task : Task} {k : Nat}

theorem Inv.installing (h : Inv cfg s m) (hpc : (s.clients c).pc = .casRoot p task k sibling root)
    (hroot : s.rootPtr = (s.clients c).root) : Installing cfg s m c p sibling root task k := by
  have hok := h.pc c
  rw [hpc] at hok
  obtain ⟨⟨-, -, ⟨y, hp, -⟩, -⟩, hrootp, hmemRoot⟩ := hok
  obtain ⟨hfr, -, hnull⟩ := h.fresh c root (by rw [hpc]; rfl)
  obtain ⟨below, hlevel, hsibling, hlow, hhigh, -⟩ := h.pending c _ (by rw [hpc]; rfl)
  obtain rfl : task.level = below := Nat.succ.inj hlevel
  obtain ⟨top, htop, hmax⟩ := h.top
  rw [hroot, hrootp, hp] at htop
  cases htop
  exact ⟨hpc, hroot, hfr, hnull, hp, hsibling, ⟨hlow, hhigh⟩, hmemRoot, hmax⟩

/-- What `casRoot` does if the compare-and-swap succeeds. -/
theorem casRoot_eq (hroot : s.rootPtr = (s.clients c).root) :
    casRoot cfg s c task k sibling root = { s with
      rootPtr := root
      messages := s.messages ++
        (List.range cfg.machineNR).map fun n => (n, root, task.level + 1) }.setPc c
      (.idle (some .done)) := if_pos hroot

namespace Installing

variable (hi : Installing cfg s m c p sibling root task k)

include hi

theorem le : m.Le (m.add root (task.level + 1) kKeyMin) := Chart.le_add _ _ hi.unlinked

/-- No page of the old chart was on the level of the new root. -/
theorem new_of_level {a : GlobalAddress} {z : Nat}
    (ha : m.add root (task.level + 1) kKeyMin a = some (task.level + 1, z)) :
    a = root ∧ z = kKeyMin := by
  rcases Chart.add_cases ha with hma | ⟨rfl, heq⟩
  · exact absurd (hi.highest a _ _ hma) (Nat.not_succ_le_self _)
  · exact ⟨rfl, congrArg Prod.snd heq⟩

theorem rootOk : (newRoot p k sibling (task.level + 1)).Ok (m.add root (task.level + 1) kKeyMin)
    (task.level + 1) kKeyMin :=
  newRoot_ok (hi.le _ _ hi.page) (hi.le _ _ hi.sibling_mem) hi.inside

/-! What the step leaves alone -/

theorem mem : (casRoot cfg s c task k sibling root).mem = s.mem := by
  rw [casRoot_eq hi.swaps]
  rfl

theorem locks : (casRoot cfg s c task k sibling root).locks = s.locks := by
  rw [casRoot_eq hi.swaps]
  rfl

theorem directory : (casRoot cfg s c task k sibling root).directory = s.directory := by
  rw [casRoot_eq hi.swaps]
  rfl

theorem cache : (casRoot cfg s c task k sibling root).cache = s.cache := by
  rw [casRoot_eq hi.swaps]
  rfl

theorem content (a : GlobalAddress) :
    (casRoot cfg s c task k sibling root).content cfg a = s.content cfg a := by
  rw [casRoot_eq hi.swaps]
  rfl

theorem clients : (casRoot cfg s c task k sibling root).clients =
    Function.update s.clients c { s.clients c with pc := .idle (some .done) } := by
  rw [casRoot_eq hi.swaps]
  rfl

/-- The client has nothing to post any more, the others have what they had. -/
theorem pending_of {e : Client} {d : Pending}
    (he : ((casRoot cfg s c task k sibling root).clients e).pc.pending = some d) :
    e ≠ c ∧ (s.clients e).pc.pending = some d := by
  rw [hi.clients] at he
  by_cases hec : e = c
  · subst hec
    rw [Function.update_self] at he
    cases he
  · rw [Function.update_of_ne hec] at he
    exact ⟨hec, he⟩

theorem contentRoot (h : Shape cfg s m) :
    s.content cfg root = some (newRoot p k sibling (task.level + 1)) := by
  rw [content_of_not_posted, hi.written]
  intro q hq
  obtain ⟨-, i, z, hm, -⟩ := h.posted _ _ _ hq
  rw [hi.unlinked] at hm
  cases hm

/-! The parts of the invariant -/

/-- The new root is the only page of its level, the levels below are as they were. -/
theorem tiling (h : Shape cfg s m) (i : Nat) :
    Tiling (Covers cfg (casRoot cfg s c task k sibling root)
      (m.add root (task.level + 1) kKeyMin) i) := by
  by_cases hlevel : i = task.level + 1
  · subst hlevel
    have honly : ∀ {a u w}, Covers cfg (casRoot cfg s c task k sibling root)
        (m.add root (task.level + 1) kKeyMin) (task.level + 1) a u w →
        a = root ∧ u = kKeyMin ∧ w = kKeyMax := by
      rintro a u w ⟨ha, q, hq, rfl⟩
      obtain ⟨rfl, rfl⟩ := hi.new_of_level ha
      rw [hi.content, hi.contentRoot h] at hq
      cases hq
      exact ⟨rfl, rfl, rfl⟩
    constructor
    · intro a u w ha
      obtain ⟨-, rfl, rfl⟩ := honly ha
      decide
    · intro a u w u' w' ha hb
      rw [(honly ha).2.1, (honly hb).2.1]
    · intro a u w u' w' ha hb
      rw [(honly ha).2.2, (honly hb).2.2]
    · intro a b u w w' ha hb
      rw [(honly ha).1, (honly hb).1]
    · intro a b u w u' w' ha hb hlt
      rw [(honly ha).2.1, (honly hb).2.1] at hlt
      exact absurd hlt (Nat.lt_irrefl _)
  · refine (h.tiling i).congr fun a u w => ?_
    unfold Covers
    rw [hi.content]
    exact and_congr_left fun _ => ⟨Chart.add_of_level hlevel, hi.le _ _⟩

theorem shape (h : Shape cfg s m) : Shape cfg (casRoot cfg s c task k sibling root)
    (m.add root (task.level + 1) kKeyMin) where
  null := (m.add_other _ _ (Ne.symm hi.notNull)).trans h.null
  page a i z ha := by
    rw [hi.mem]
    rcases Chart.add_cases ha with hma | ⟨rfl, heq⟩
    · obtain ⟨q, hq, hqok⟩ := h.page a i z hma
      exact ⟨q, hq, hqok.mono hi.le⟩
    · cases heq
      exact ⟨_, hi.written, hi.rootOk⟩
  posted l a q hq := by
    rw [hi.locks] at hq
    obtain ⟨hlock, i, z, hm, hqok⟩ := h.posted l a q hq
    exact ⟨hlock, i, z, hi.le _ _ hm, hqok.mono hi.le⟩
  tiling := hi.tiling h

/-- The client is done; the others still know what they did. -/
theorem clientsOk (h : Inv cfg s m) : ClientsOk cfg (casRoot cfg s c task k sibling root)
    (m.add root (task.level + 1) kKeyMin) := by
  refine h.toClientsOk.step hi.le (hi.shape h.shape).null c hi.clients (fun a ha => ?_)
    (fun a d _ _ _ => congrFun hi.mem a) (fun a hma hm' => ?_) (fun d l _ hl => ?_) (fun n hn => ?_)
    (h.valid c) trivial (fun l hl => by cases hl) (fun a ha => by cases ha)
  · rwa [hi.mem]
  · obtain ⟨e, he⟩ := Option.ne_none_iff_exists'.mp hm'
    rcases Chart.add_cases he with hma' | ⟨rfl, -⟩
    · rw [hma] at hma'
      cases hma'
    · rw [hi.pc]
      rfl
  · rwa [hi.locks]
  · rwa [hi.directory]

theorem top : TopOk (casRoot cfg s c task k sibling root)
    (m.add root (task.level + 1) kKeyMin) := by
  refine ⟨task.level + 1, ?_, fun a i z ha => ?_⟩
  · rw [casRoot_eq hi.swaps]
    exact m.add_self ..
  · rcases Chart.add_cases ha with hma | ⟨-, heq⟩
    · exact Nat.le_succ_of_le (hi.highest a i z hma)
    · exact Nat.le_of_eq (congrArg Prod.fst heq)

theorem directoryOk (h : Inv cfg s m) (n : Nat) :
    DirectoryOk (m.add root (task.level + 1) kKeyMin)
      ((casRoot cfg s c task k sibling root).directory n) := by
  rw [hi.directory]
  refine ⟨fun hne => ?_, (h.directory n).enabled⟩
  obtain ⟨i, hlevel, hroot⟩ := (h.directory n).root hne
  exact ⟨i, hlevel, hi.le _ _ hroot⟩

/-- The messages announce the new root. -/
theorem messages (h : Inv cfg s m) {n l : Nat} {a : GlobalAddress}
    (ha : (n, a, l) ∈ (casRoot cfg s c task k sibling root).messages) :
    m.add root (task.level + 1) kKeyMin a = some (l, kKeyMin) := by
  rw [casRoot_eq hi.swaps] at ha
  rcases List.mem_append.mp ha with hold | hnew
  · exact hi.le _ _ (h.messages n a l hold)
  · obtain ⟨n', -, heq⟩ := List.mem_map.mp hnew
    cases heq
    exact m.add_self ..

/-- Who else has a separator to post does not find it in the new root. -/
theorem pending (h : Inv cfg s m) {e : Client} {d : Pending}
    (he : ((casRoot cfg s c task k sibling root).clients e).pc.pending = some d) :
    PendingOk cfg (casRoot cfg s c task k sibling root) (m.add root (task.level + 1) kKeyMin)
      d := by
  obtain ⟨hec, hold⟩ := hi.pending_of he
  obtain ⟨below, hlevel, hsib, hlow, hhigh, hnewkey, hrec⟩ := h.pending e d hold
  refine ⟨below, hlevel, hi.le _ _ hsib, hlow, hhigh, fun a ha => ?_, fun a z q ha hq => ?_⟩
  · rcases Chart.add_cases ha with hma | ⟨-, heq⟩
    · exact hnewkey a hma
    · exact absurd (congrArg Prod.snd heq) (Nat.ne_of_gt hlow)
  · rw [hi.content] at hq
    rcases Chart.add_cases ha with hma | ⟨rfl, heq⟩
    · exact hrec a z q hma hq
    · rw [hi.contentRoot h.shape] at hq
      cases hq
      intro r hr hkey
      cases List.mem_singleton.mp hr
      exact hec (h.pending_unique hold (by rw [hi.pc]; rfl) (congrArg Prod.fst heq) hkey.symm)

theorem inv (h : Inv cfg s m) : Inv cfg (casRoot cfg s c task k sibling root)
    (m.add root (task.level + 1) kKeyMin) where
  toClientsOk := hi.clientsOk h
  shape := hi.shape h.shape
  top := hi.top
  directory := hi.directoryOk h
  messages _ _ _ := hi.messages h
  cache n e q he hq := by
    rw [hi.cache] at he
    obtain ⟨hqok, hstart, hlast⟩ := h.cache n e q he hq
    exact ⟨hqok.mono hi.le, hstart, hlast⟩
  pending _ _ := hi.pending h
  pendingOnce e f d d' he hf :=
    h.pendingOnce e f d d' (hi.pending_of he).2 (hi.pending_of hf).2

/-- The new root is no leaf. -/
theorem holds_iff (h : Inv cfg s m) (k' v : Nat) :
    Holds cfg (casRoot cfg s c task k sibling root) (m.add root (task.level + 1) kKeyMin) k' v ↔
      Holds cfg s m k' v := by
  constructor
  · rintro ⟨a, e, q, ha, hq, hhas⟩
    rw [hi.content] at hq
    rcases Chart.add_cases ha with hma | ⟨rfl, -⟩
    · exact ⟨a, _, q, hma, hq, hhas⟩
    · rw [hi.contentRoot h.shape] at hq
      cases hq
      exact hhas.elim
  · rintro ⟨a, e, q, ha, hq, hhas⟩
    exact ⟨a, e, q, hi.le _ _ ha, (hi.content a).trans hq, hhas⟩

theorem keeps {l x : Nat} {a : GlobalAddress} (hposted : Posted cfg s m l x a) :
    Posted cfg (casRoot cfg s c task k sibling root) (m.add root (task.level + 1) kKeyMin) l x
      a := by
  obtain ⟨u, w, q, hu, hq, hpoints⟩ := hposted
  exact ⟨u, w, q, hi.le _ _ hu, (hi.content u).trans hq, hpoints⟩

/-- The separator the client had to post is the one record of the new root. -/
theorem posts (h : Inv cfg s m) {d : Pending} (hd : (s.clients c).pc.pending = some d) :
    ∃ below, d.level = below + 1 ∧ Posted cfg (casRoot cfg s c task k sibling root)
      (m.add root (task.level + 1) kKeyMin) below d.key d.sibling := by
  rw [hi.pc] at hd
  cases hd
  refine ⟨task.level, rfl, root, kKeyMin, _, m.add_self ..,
    (hi.content root).trans (hi.contentRoot h.shape), Or.inl ?_⟩
  exact List.mem_singleton_self _

end Installing

/-- The compare-and-swap that installs a new root above the one it replaces. -/
theorem Inv.grow (h : Inv cfg s m) (hpc : (s.clients c).pc = .casRoot p task k sibling root)
    (hroot : s.rootPtr = (s.clients c).root) :
    Advance cfg s m (casRoot cfg s c task k sibling root)
      (m.add root (task.level + 1) kKeyMin) none := by
  have hi := h.installing hpc hroot
  refine ⟨hi.le, hi.inv h, hi.holds_iff h, fun _ _ _ => hi.keeps, fun e d he => ?_,
    fun a i z ha => ?_⟩
  · by_cases hec : e = c
    · subst hec
      exact Or.inr (Or.inl (hi.posts h he))
    · rw [hi.clients, Function.update_of_ne hec]
      exact Or.inl he
  · rcases Chart.add_cases ha with hma | ⟨-, heq⟩
    · exact Or.inl hma
    · exact Or.inr (Or.inl (congrArg Prod.snd heq))

end Grow

end Dal.Tree
