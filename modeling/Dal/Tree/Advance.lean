/-
What a step does to the tree.

A step is calm if it changes no page of the tree, or it is a commit: a page is written
under its lock, with or without a new sibling, or a new root is installed.  Either way
the invariant is kept, and `Advance` says what else there is to say about a step: what
the leaves hold afterwards, that no separator disappears, and that a client stops
having one to post only because it is posted.
-/
import Dal.Tree.Local

namespace Dal.Tree

/-- Some page holds `v` under `k`. -/
def Holds (cfg : Config) (s : State) (m : Chart) (k v : Nat) : Prop :=
  ∃ a e page, m a = some e ∧ s.content cfg a = some page ∧ page.Has k v

/-- The page `a` of level `l`, which begins at `x`, is known one level up. -/
def Posted (cfg : Config) (s : State) (m : Chart) (l x : Nat) (a : GlobalAddress) : Prop :=
  ∃ u y page, m u = some (l + 1, y) ∧ s.content cfg u = some page ∧ page.Points x a

/-- What is held after an operation is carried out, or after nothing is. -/
def Effect (committed : Option Op) (has : Nat → Nat → Prop) (k v : Nat) : Prop :=
  match committed with
  | some op => if k = op.key then op.stored = some v else has k v
  | none => has k v

/-- The step from `s` to `s'`; `committed` is the operation it carries out, if it does. -/
structure Advance (cfg : Config) (s : State) (m : Chart) (s' : State) (m' : Chart)
    (committed : Option Op) : Prop where
  le : m.Le m'
  inv : Inv cfg s' m'
  holds : ∀ k v, Holds cfg s' m' k v ↔ Effect committed (Holds cfg s m) k v
  keeps : ∀ l x a, Posted cfg s m l x a → Posted cfg s' m' l x a
  posts : ∀ c d, (s.clients c).pc.pending = some d →
    (s'.clients c).pc.pending = some d ∨ (∃ below, d.level = below + 1 ∧
      Posted cfg s' m' below d.key d.sibling) ∨ ∃ why, (s'.clients c).pc = .failed why
  links : ∀ a l x, m' a = some (l, x) → m a = some (l, x) ∨ x = kKeyMin ∨
    ∃ c, (s'.clients c).pc.pending = some ⟨a, x, l + 1⟩ ∨ ∃ why, (s'.clients c).pc = .failed why

/-! ### Content -/

section Content

variable {cfg : Config} {s s' : State} {m : Chart} {a : GlobalAddress} {page : Page}

theorem content_of_posted (h : s.locks (cfg.lockAddr a) = .posted (some (a, page))) :
    s.content cfg a = some page := by
  simp [State.content, h]

theorem content_of_not_posted
    (h : ∀ page, s.locks (cfg.lockAddr a) ≠ .posted (some (a, page))) :
    s.content cfg a = s.mem a := by
  unfold State.content
  split
  · rename_i b page hlock
    split
    · rename_i hb
      subst hb
      exact absurd hlock (h page)
    · rfl
  · rfl

/-- A page whose lock is held holds what is in memory. -/
theorem content_of_held {c : Client} (h : s.locks (cfg.lockAddr a) = .held c) :
    s.content cfg a = s.mem a :=
  content_of_not_posted fun page hp => by rw [h] at hp; cases hp

theorem content_congr (hmem : s'.mem a = s.mem a)
    (hlocks : ∀ w, s'.locks (cfg.lockAddr a) = .posted (some w) ↔
      s.locks (cfg.lockAddr a) = .posted (some w)) : s'.content cfg a = s.content cfg a := by
  by_cases h : ∃ page, s.locks (cfg.lockAddr a) = .posted (some (a, page))
  · obtain ⟨page, h⟩ := h
    rw [content_of_posted h, content_of_posted ((hlocks _).mpr h)]
  · have h' : ∀ page, s.locks (cfg.lockAddr a) ≠ .posted (some (a, page)) := fun page hp =>
      h ⟨page, hp⟩
    rw [content_of_not_posted h', content_of_not_posted fun page hp => h' page ((hlocks _).mp hp)]
    exact hmem

theorem Shape.content_ok (h : Shape cfg s m) {l x : Nat} (ha : m a = some (l, x)) :
    ∃ page, s.content cfg a = some page ∧ page.Ok m l x := by
  by_cases hp : ∃ page, s.locks (cfg.lockAddr a) = .posted (some (a, page))
  · obtain ⟨page, hp⟩ := hp
    obtain ⟨-, l', x', ha', hok⟩ := h.posted _ _ _ hp
    rw [ha] at ha'
    cases ha'
    exact ⟨page, content_of_posted hp, hok⟩
  · rw [content_of_not_posted fun page hp' => hp ⟨page, hp'⟩]
    exact h.page a l x ha

theorem Shape.mapped (h : Shape cfg s m) {e : Nat × Nat} (ha : m a = some e) :
    s.mem a ≠ none := by
  obtain ⟨page, hpage, -⟩ := h.page a e.1 e.2 ha
  rw [hpage]
  exact Option.some_ne_none _

theorem Shape.covers (h : Shape cfg s m) {l x : Nat} (ha : m a = some (l, x)) :
    ∃ y, Covers cfg s m l a x y := by
  obtain ⟨page, hpage, -⟩ := h.content_ok ha
  exact ⟨_, ha, page, hpage, rfl⟩

/-- Pages of one level that begin at the same key are the same. -/
theorem Shape.inj (h : Shape cfg s m) {b : GlobalAddress} {e : Nat × Nat} (ha : m a = some e)
    (hb : m b = some e) : a = b := by
  obtain ⟨_, hca⟩ := h.covers ha
  obtain ⟨_, hcb⟩ := h.covers hb
  exact (h.tiling e.1).inj hca hcb

end Content

/-! ### What the clients know -/

section Clients

variable {cfg : Config} {s s' : State} {m m' : Chart}

/-- What a client knows it still knows, if nobody writes what it is working on. -/
theorem ClientsOk.know (h : ClientsOk cfg s m) (hle : m.Le m') (hnull : m' .Null = none)
    (d : Client)
    (hmem : ∀ a, s.mem a ≠ none → m a = none ∨ s.locks (cfg.lockAddr a) = .held d →
      s'.mem a = s.mem a)
    (henabled : ∀ n, (s.directory n).enableCache = true → (s'.directory n).enableCache = true) :
    PcOk m' (s'.directory d.node).enableCache s'.mem (s.clients d) (s.clients d).pc := by
  refine PcOk.mono hle hnull (henabled d.node) (fun p task page hp => ?_) (fun a ha => ?_) (h.pc d)
  · have hok := h.pc d
    have hlock : s.locks (cfg.lockAddr p) = .held d := h.held d _ (by
      rcases hp with hp | ⟨sibling, hp⟩ <;> rw [hp] <;> rfl)
    have hpage : s.mem p = some page := by
      rcases hp with hp | ⟨sibling, hp⟩ <;> rw [hp] at hok
      · exact hok.2
      · exact hok.2.1
    exact hmem p (by rw [hpage]; exact Option.some_ne_none _) (Or.inr hlock)
  · obtain ⟨hma, hmema, -⟩ := h.fresh d a ha
    exact hmem a hmema (Or.inl hma)

/-- A client takes a step; the others still know what they did. -/
theorem ClientsOk.step (h : ClientsOk cfg s m) (hle : m.Le m') (hnull : m' .Null = none)
    (c : Client) {x' : Local} (hclients : s'.clients = Function.update s.clients c x')
    (hmapped : ∀ a, s.mem a ≠ none → s'.mem a ≠ none)
    (hmem : ∀ a d, d ≠ c → s.mem a ≠ none → m a = none ∨ s.locks (cfg.lockAddr a) = .held d →
      s'.mem a = s.mem a)
    (hnew : ∀ a, m a = none → m' a ≠ none → (s.clients c).pc.fresh = some a)
    (hothers : ∀ d k, d ≠ c → s.locks k = .held d → s'.locks k = .held d)
    (henabled : ∀ n, (s.directory n).enableCache = true → (s'.directory n).enableCache = true)
    (hvalid : x'.op.valid = true)
    (hpc : PcOk m' (s'.directory c.node).enableCache s'.mem x' x'.pc)
    (hheld : ∀ k, x'.pc.holds cfg = some k → s'.locks k = .held c)
    (hfresh : ∀ a, x'.pc.fresh = some a → m' a = none ∧ s'.mem a ≠ none ∧ a ≠ .Null ∧
      ((s.clients c).pc.fresh = some a ∨ s.mem a = none)) : ClientsOk cfg s' m' := by
  have hself : s'.clients c = x' := by rw [hclients, Function.update_self]
  have hother : ∀ d, d ≠ c → s'.clients d = s.clients d := fun d hd => by
    rw [hclients, Function.update_of_ne hd]
  have hfreshOther : ∀ d a, d ≠ c → (s.clients d).pc.fresh = some a → x'.pc.fresh ≠ some a := by
    intro d a hd hda hxa
    obtain ⟨-, -, -, hca | hnone⟩ := hfresh a hxa
    · exact hd (h.freshOnce d c a hda hca)
    · exact (h.fresh d a hda).2.1 hnone
  refine ⟨fun d => ?_, fun d => ?_, fun d k hk => ?_, fun d a ha => ?_, fun d e a hda hea => ?_⟩
  · by_cases hd : d = c
    · subst hd
      rwa [hself]
    · rw [hother d hd]
      exact h.valid d
  · by_cases hd : d = c
    · subst hd
      rwa [hself]
    · rw [hother d hd]
      exact h.know hle hnull d (fun a ha hor => hmem a d hd ha hor) henabled
  · by_cases hd : d = c
    · subst hd
      rw [hself] at hk
      exact hheld k hk
    · rw [hother d hd] at hk
      exact hothers d k hd (h.held d k hk)
  · by_cases hd : d = c
    · subst hd
      rw [hself] at ha
      obtain ⟨hma, hmema, hne, -⟩ := hfresh a ha
      exact ⟨hma, hmema, hne⟩
    · rw [hother d hd] at ha
      obtain ⟨hma, hmema, hne⟩ := h.fresh d a ha
      refine ⟨?_, hmapped a hmema, hne⟩
      by_contra hm'
      exact hd (h.freshOnce d c a ha (hnew a hma hm'))
  · by_cases hd : d = c <;> by_cases he : e = c
    · rw [hd, he]
    · subst hd
      rw [hself] at hda
      rw [hother e he] at hea
      exact absurd hda (hfreshOther e a he hea)
    · subst he
      rw [hself] at hea
      rw [hother d hd] at hda
      exact absurd hea (hfreshOther d a hd hda)
    · rw [hother d hd] at hda
      rw [hother e he] at hea
      exact h.freshOnce d e a hda hea

end Clients

/-! ### Steps that change no page of the tree -/

section Calm

variable {cfg : Config} {s s' : State} {m : Chart}

/-- A step after which every page of the tree holds what it held. -/
theorem Inv.still (h : Inv cfg s m) (hclients : ClientsOk cfg s' m)
    (hroot : s'.rootPtr = s.rootPtr)
    (hcontent : ∀ a e, m a = some e → s'.content cfg a = s.content cfg a)
    (hmem : ∀ a l x, m a = some (l, x) → ∃ page, s'.mem a = some page ∧ page.Ok m l x)
    (hposted : ∀ k w, s'.locks k = .posted (some w) → s.locks k = .posted (some w))
    (hdir : ∀ n, DirectoryOk m (s'.directory n))
    (hmessages : ∀ x ∈ s'.messages, x ∈ s.messages)
    (hcache : ∀ n e page, e ∈ s'.cache n → e.ptr = some page → CopyOk m e page)
    (hpending : ∀ c, (s'.clients c).pc.pending = (s.clients c).pc.pending ∨
      ∃ why, (s'.clients c).pc = .failed why) :
    Advance cfg s m s' m none := by
  have hpendingOf : ∀ c d, (s'.clients c).pc.pending = some d →
      (s.clients c).pc.pending = some d := by
    intro c d hd
    rcases hpending c with heq | ⟨why, hwhy⟩
    · rwa [heq] at hd
    · rw [hwhy] at hd
      cases hd
  have hshape : Shape cfg s' m := by
    refine ⟨h.shape.null, hmem, fun k a page hp => h.shape.posted k a page (hposted _ _ hp),
      fun l => ?_⟩
    refine (h.shape.tiling l).congr fun a x y => and_congr_right fun ha => ?_
    rw [hcontent a _ ha]
  refine ⟨Chart.Le.refl m, ⟨hclients, hshape, ?_, hdir, ?_, hcache, ?_, ?_⟩,
    fun k v => ?_, ?_, ?_, fun a l x ha => Or.inl ha⟩
  · obtain ⟨top, htop, hle⟩ := h.top
    exact ⟨top, hroot ▸ htop, hle⟩
  · exact fun n a l hm => h.messages n a l (hmessages _ hm)
  · intro c d hd
    obtain ⟨below, hlevel, hsib, hlow, htop, hnew, hrec⟩ := h.pending c d (hpendingOf c d hd)
    refine ⟨below, hlevel, hsib, hlow, htop, hnew, fun a x page ha hpage => ?_⟩
    rw [hcontent a _ ha] at hpage
    exact hrec a x page ha hpage
  · exact fun c e x y hx hy heq =>
      h.pendingOnce c e x y (hpendingOf c x hx) (hpendingOf e y hy) heq
  · constructor
    · rintro ⟨a, e, page, ha, hpage, hhas⟩
      exact ⟨a, e, page, ha, hcontent a _ ha ▸ hpage, hhas⟩
    · rintro ⟨a, e, page, ha, hpage, hhas⟩
      exact ⟨a, e, page, ha, (hcontent a _ ha).trans hpage, hhas⟩
  · rintro l x a ⟨u, y, page, hu, hpage, hpoints⟩
    exact ⟨u, y, page, hu, (hcontent u _ hu).trans hpage, hpoints⟩
  · intro c d hd
    rcases hpending c with heq | hwhy
    · exact Or.inl (heq.trans hd)
    · exact Or.inr (Or.inr hwhy)

/-- A step of client `c` that leaves the pages that are written alone. -/
theorem Inv.calm (h : Inv cfg s m) (c : Client) {x' : Local}
    (hclients : s'.clients = Function.update s.clients c x') (hroot : s'.rootPtr = s.rootPtr)
    (hmem : ∀ a, s.mem a ≠ none → s'.mem a = s.mem a)
    (hlocks : ∀ k w, s'.locks k = .posted (some w) ↔ s.locks k = .posted (some w))
    (hothers : ∀ d k, d ≠ c → s.locks k = .held d → s'.locks k = .held d)
    (hdir : ∀ n, DirectoryOk m (s'.directory n) ∧
      ((s.directory n).enableCache = true → (s'.directory n).enableCache = true))
    (hmessages : ∀ x ∈ s'.messages, x ∈ s.messages)
    (hcache : ∀ n e page, e ∈ s'.cache n → e.ptr = some page → CopyOk m e page)
    (hvalid : x'.op.valid = true)
    (hpc : PcOk m (s'.directory c.node).enableCache s'.mem x' x'.pc)
    (hheld : ∀ k, x'.pc.holds cfg = some k → s'.locks k = .held c)
    (hfresh : ∀ a, x'.pc.fresh = some a → (s.clients c).pc.fresh = some a ∨
      (s.mem a = none ∧ s'.mem a ≠ none ∧ a ≠ .Null))
    (hpending : x'.pc.pending = (s.clients c).pc.pending ∨ ∃ why, x'.pc = .failed why) :
    Advance cfg s m s' m none := by
  have hmapped : ∀ a, s.mem a ≠ none → s'.mem a ≠ none := fun a ha => by rwa [hmem a ha]
  have hclientsOk : ClientsOk cfg s' m := by
    refine h.toClientsOk.step (Chart.Le.refl m) h.shape.null c hclients hmapped
      (fun a d _ ha _ => hmem a ha) (fun a ha ha' => absurd ha ha') hothers
      (fun n => (hdir n).2) hvalid hpc hheld fun a ha => ?_
    rcases hfresh a ha with hca | ⟨hnone, hsome, hne⟩
    · obtain ⟨hma, hmema, hne⟩ := h.fresh c a hca
      exact ⟨hma, hmapped a hmema, hne, Or.inl hca⟩
    · refine ⟨?_, hsome, hne, Or.inr hnone⟩
      by_contra hma
      obtain ⟨e, he⟩ := Option.ne_none_iff_exists'.mp hma
      exact h.shape.mapped he hnone
  refine h.still hclientsOk hroot
    (fun a e ha => content_congr (hmem a (h.shape.mapped ha)) (hlocks _)) (fun a l x ha => ?_)
    (fun k w hw => (hlocks k w).mp hw) (fun n => (hdir n).1) hmessages hcache fun d => ?_
  · rw [hmem a (h.shape.mapped ha)]
    exact h.shape.page a l x ha
  · by_cases hd : d = c
    · subst hd
      rwa [hclients, Function.update_self]
    · rw [hclients, Function.update_of_ne hd]
      exact Or.inl rfl

/-- A step of no client, after which only pages nobody works on may lie differently. -/
theorem Inv.settle (h : Inv cfg s m) (hclients : s'.clients = s.clients)
    (hroot : s'.rootPtr = s.rootPtr)
    (hcontent : ∀ a e, m a = some e → s'.content cfg a = s.content cfg a)
    (hmem : ∀ a, s'.mem a = s.mem a ∨ m a ≠ none ∧ (∀ d, s.locks (cfg.lockAddr a) ≠ .held d) ∧
      s'.mem a = s.content cfg a)
    (hposted : ∀ k w, s'.locks k = .posted (some w) → s.locks k = .posted (some w))
    (hothers : ∀ d k, s.locks k = .held d → s'.locks k = .held d)
    (hdir : ∀ n, DirectoryOk m (s'.directory n) ∧
      ((s.directory n).enableCache = true → (s'.directory n).enableCache = true))
    (hmessages : ∀ x ∈ s'.messages, x ∈ s.messages)
    (hcache : ∀ n e page, e ∈ s'.cache n → e.ptr = some page → CopyOk m e page) :
    Advance cfg s m s' m none := by
  have hmapped : ∀ a, s.mem a ≠ none → s'.mem a ≠ none := by
    intro a ha
    rcases hmem a with heq | ⟨hma, -, heq⟩ <;> rw [heq]
    · exact ha
    · obtain ⟨e, he⟩ := Option.ne_none_iff_exists'.mp hma
      obtain ⟨page, hpage, -⟩ := h.shape.content_ok (l := e.1) (x := e.2) he
      rw [hpage]
      exact Option.some_ne_none _
  refine h.still ⟨fun d => ?_, fun d => ?_, fun d k hk => ?_, fun d a ha => ?_, ?_⟩ hroot hcontent
    (fun a l x ha => ?_) hposted (fun n => (hdir n).1) hmessages hcache fun d => ?_
  · rw [hclients]
    exact h.valid d
  · rw [hclients]
    refine h.know (Chart.Le.refl m) h.shape.null d (fun a _ hor => ?_) fun n => (hdir n).2
    rcases hmem a with heq | ⟨hma, hfree, -⟩
    · exact heq
    · exact absurd hor (not_or.mpr ⟨hma, hfree d⟩)
  · rw [hclients] at hk
    exact hothers d k (h.held d k hk)
  · rw [hclients] at ha
    obtain ⟨hma, hmema, hne⟩ := h.fresh d a ha
    exact ⟨hma, hmapped a hmema, hne⟩
  · rw [hclients]
    exact h.freshOnce
  · rcases hmem a with heq | ⟨-, -, heq⟩ <;> rw [heq]
    · exact h.shape.page a l x ha
    · exact h.shape.content_ok ha
  · rw [hclients]
    exact Or.inl rfl

end Calm

end Dal.Tree
