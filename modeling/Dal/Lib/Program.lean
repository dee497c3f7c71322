/-
Programs that take locks, give them back and ask their surroundings questions.

A `Program` says what a procedure does between the locks; everything it reads comes as
the answer to a question, and any answer may come.  A trace is what somebody who only
watches the locks sees of a run, up to some moment or up to its return.

`Disciplined` is checked once along the text of a program: it acquires only with
nothing held, releases what it holds, and returns with nothing held.  What it gives
about traces is proved here once and for all.
-/

namespace Dal

inductive LockOp (L : Type) where
  | acquire (l : L)
  | release (l : L)
  deriving DecidableEq, Repr

/-- A program over locks `L` that asks questions `Q` and returns an `α`. -/
inductive Program (L : Type) {Q : Type} (A : Q → Type) (α : Type) where
  | ret (a : α)
  | acquire (l : L) (rest : Program L A α)
  | release (l : L) (rest : Program L A α)
  | ask (q : Q) (rest : A q → Program L A α)
  /-- It does nothing any more, and does not return. -/
  | stop

namespace Program

variable {L Q : Type} {A : Q → Type} {α β : Type}

def bind : Program L A α → (α → Program L A β) → Program L A β
  | ret a, f => f a
  | acquire l rest, f => acquire l (rest.bind f)
  | release l rest, f => release l (rest.bind f)
  | ask q rest, f => ask q fun a => (rest a).bind f
  | stop, _ => stop

instance : Monad (Program L A) where
  pure := ret
  bind := bind

/-- One operation on a lock, or one question, as a program of its own. -/
def lock (l : L) : Program L A Unit := acquire l (ret ())
def unlock (l : L) : Program L A Unit := release l (ret ())
def question (q : Q) : Program L A (A q) := ask q ret

/-! ### What is seen of the locks -/

/-- The operations seen so far, and what was returned if the program has returned. -/
inductive Trace : Program L A α → List (LockOp L) → Option α → Prop
  | here (p : Program L A α) : Trace p [] none
  | ret (a : α) : Trace (ret a) [] (some a)
  | acquire {l : L} {rest : Program L A α} {ops : List (LockOp L)} {r : Option α}
      (h : Trace rest ops r) : Trace (acquire l rest) (.acquire l :: ops) r
  | release {l : L} {rest : Program L A α} {ops : List (LockOp L)} {r : Option α}
      (h : Trace rest ops r) : Trace (release l rest) (.release l :: ops) r
  | ask {q : Q} {rest : A q → Program L A α} {ops : List (LockOp L)} {r : Option α} (a : A q)
      (h : Trace (rest a) ops r) : Trace (ask q rest) ops r

/-- The run in which each question has one answer, however often it is asked. -/
def exec (answer : (q : Q) → A q) : Program L A α → List (LockOp L) × Option α
  | ret a => ([], some a)
  | acquire l rest => (.acquire l :: (exec answer rest).1, (exec answer rest).2)
  | release l rest => (.release l :: (exec answer rest).1, (exec answer rest).2)
  | ask q rest => exec answer (rest (answer q))
  | stop => ([], none)

theorem trace_exec (answer : (q : Q) → A q) (p : Program L A α) :
    Trace p (p.exec answer).1 (p.exec answer).2 := by
  induction p with
  | ret a => exact .ret a
  | acquire l rest ih => exact .acquire ih
  | release l rest ih => exact .release ih
  | ask q rest ih => exact .ask _ (ih (answer q))
  | stop => exact .here stop

/-! ### Discipline -/

/-- Started with `held` in hand the program acquires only with nothing in hand, releases what it
has in hand, and has `post` in hand when it returns. -/
def Disciplined (post : Option L) : Option L → Program L A α → Prop
  | held, ret _ => held = post
  | held, acquire l rest => held = none ∧ Disciplined post (some l) rest
  | held, release l rest => held = some l ∧ Disciplined post none rest
  | held, ask _ rest => ∀ a, Disciplined post held (rest a)
  | _, stop => True

section

variable {held mid post : Option L}

theorem Disciplined.bind {f : α → Program L A β} :
    ∀ {p : Program L A α} {held : Option L}, Disciplined mid held p →
      (∀ a, Disciplined post mid (f a)) → Disciplined post held (p >>= f) := by
  intro p
  induction p with
  | ret a =>
      intro held h hf
      have h : held = mid := h
      rw [h]
      exact hf a
  | acquire l rest ih => exact fun h hf => ⟨h.1, ih h.2 hf⟩
  | release l rest ih => exact fun h hf => ⟨h.1, ih h.2 hf⟩
  | ask q rest ih => exact fun h hf a => ih a (h a) hf
  | stop => exact fun _ _ => trivial

theorem Disciplined.ret (a : α) : Disciplined held held (Program.ret a : Program L A α) := rfl

theorem Disciplined.stop : Disciplined post held (Program.stop : Program L A α) := trivial

theorem Disciplined.lock (l : L) : Disciplined (some l) none (Program.lock l : Program L A Unit) :=
  ⟨rfl, rfl⟩

theorem Disciplined.unlock (l : L) :
    Disciplined none (some l) (Program.unlock l : Program L A Unit) := ⟨rfl, rfl⟩

theorem Disciplined.question (q : Q) :
    Disciplined held held (Program.question q : Program L A (A q)) := fun _ => rfl

end

/-! ### What discipline gives -/

/-- One `acquire` and one `release` of each lock in turn. -/
def pairs (ls : List L) : List (LockOp L) := ls.flatMap fun l => [.acquire l, .release l]

/-- What a watcher sees of a disciplined program: pairs, or pairs and the first half of one more
if it has not returned yet. -/
def Alternates (ops : List (LockOp L)) (returned : Prop) : Prop :=
  (∃ ls, ops = pairs ls) ∨ ¬ returned ∧ ∃ ls l, ops = pairs ls ++ [.acquire l]

/-- From a moment when `held` is in hand. -/
theorem Trace.alternates {p : Program L A α} {ops : List (LockOp L)} {r : Option α}
    (h : Trace p ops r) : ∀ {held : Option L}, Disciplined none held p →
      match held with
      | none => Alternates ops (r.isSome = true)
      | some l => ops = [] ∧ r = none ∨
          ∃ rest, ops = .release l :: rest ∧ Alternates rest (r.isSome = true) := by
  induction h with
  | here p =>
      intro held _
      cases held with
      | none => exact Or.inl ⟨[], rfl⟩
      | some l => exact Or.inl ⟨rfl, rfl⟩
  | ret a =>
      intro held hd
      have hd : held = none := hd
      subst hd
      exact Or.inl ⟨[], rfl⟩
  | @acquire l rest ops r h ih =>
      intro held hd
      obtain ⟨rfl, hrest⟩ := hd
      rcases ih hrest with ⟨rfl, rfl⟩ | ⟨rest', rfl, ⟨ls, rfl⟩ | ⟨hr, ls, l', rfl⟩⟩
      · exact Or.inr ⟨Bool.false_ne_true, [], l, rfl⟩
      · exact Or.inl ⟨l :: ls, rfl⟩
      · exact Or.inr ⟨hr, l :: ls, l', rfl⟩
  | release h ih =>
      intro held hd
      obtain ⟨rfl, hrest⟩ := hd
      exact Or.inr ⟨_, rfl, ih hrest⟩
  | ask a h ih => exact fun hd => ih (hd a)

/-- **A disciplined program is seen to take and give back one lock after another.** -/
theorem Disciplined.alternates {p : Program L A α} (hd : Disciplined none none p)
    {ops : List (LockOp L)} {r : Option α} (h : Trace p ops r) :
    Alternates ops (r.isSome = true) := h.alternates hd

end Program

end Dal
