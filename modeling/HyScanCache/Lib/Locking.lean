import Mathlib.Logic.Hydra
import HyScanCache.Lib.Lts
import HyScanCache.Lib.Prog

/-!
# Threads that take locks

A thread is a program that acquires read-write locks, alone or with others, releases them, and acts on a memory
they protect; what an action does is left open.  `system` is the system of any number of threads, each of which
carries out one call.

A program is `Disciplined` if it acquires a lock only when all it holds are of lower rank, releases a lock the way
it has acquired it, acts under the locks its actions call for, and holds nothing at its end.  If the programs of
all calls are disciplined:

* `Orderly.excludes`: two threads that hold a lock are not at odds about it;
* `Orderly.race_free`: two actions that need a lock each, one of them alone, are never next at the same time;
* `Orderly.progress`: no deadlock: while calls are under way one of them can take a step, even if a thread that
  would share a lock has to wait for those that wait to have it alone;
* `inevitable`: so every schedule comes to an end, at which all calls have returned;
* `steps_alone`: a thread that finds the others without locks can go on to its end.
-/

namespace HyScanCache.Lib

/-- How a lock is held. -/
inductive Mode where
  | shared | exclusive
  deriving DecidableEq

/-- The locks a thread holds. -/
abbrev Held (κ : Type) := κ → Option Mode

/-- No lock is held. -/
def noLocks {κ : Type} : Held κ := fun _ => none

/-- One of the two holds a lock alone that the other one holds as well. -/
def AtOdds {κ : Type} (held held' : Held κ) : Prop :=
  ∃ l, held l = some .exclusive ∧ held' l ≠ none ∨ held l ≠ none ∧ held' l = some .exclusive

/-- What a thread does. -/
inductive LockOp (κ Op : Type) where
  | acquire (l : κ) (m : Mode)
  | release (l : κ) (m : Mode)
  | act (o : Op)

/-- What it is answered. -/
@[reducible] def LockOp.Ans {κ Op : Type} (A : Op → Type) : LockOp κ Op → Type
  | acquire .. | release .. => Unit
  | act o => A o

/-- A thread's program. -/
abbrev LockProg (κ Op : Type) (A : Op → Type) := Prog (LockOp κ Op) (LockOp.Ans A)

section Programs

variable {κ Op : Type} {A : Op → Type} {σ : Type}

abbrev acquire (l : κ) (m : Mode) : LockProg κ Op A Unit := Prog.perform (LockOp.acquire l m)
abbrev release (l : κ) (m : Mode) : LockProg κ Op A Unit := Prog.perform (LockOp.release l m)
abbrev act (o : Op) : LockProg κ Op A (A o) := Prog.perform (LockOp.act o)

/-- The program ends, and the lock is released. -/
def leaving {α : Type} (l : κ) (m : Mode) (p : LockProg κ Op A α) : LockProg κ Op A α := do
  let a ← p
  release l m
  return a

/-- The program is carried out under the lock. -/
def locked {α : Type} (l : κ) (m : Mode) (p : LockProg κ Op A α) : LockProg κ Op A α := do
  acquire l m
  leaving l m p

/-- How a thread's operations are answered when it is alone: locks do not matter. -/
inductive Alone (R : (o : Op) → σ → A o → σ → Prop) : (o : LockOp κ Op) → σ → o.Ans A → σ → Prop
  | acquire {l : κ} {m : Mode} {s : σ} : Alone R (.acquire l m) s () s
  | release {l : κ} {m : Mode} {s : σ} : Alone R (.release l m) s () s
  | act {o : Op} {s s' : σ} {a : A o} (h : R o s a s') : Alone R (.act o) s a s'

end Programs

/-! ### Disciplined programs -/

section Disciplined

variable {κ Op : Type} {A : Op → Type} {α γ : Type} [DecidableEq κ]

/-- **The discipline** of a program that holds the locks `held`, and holds `final` at its end: `rank` orders the
locks, and `allowed` says under which locks an action may be done. -/
def Disciplined (rank : κ → ℕ) (allowed : Op → Held κ → Prop) (final : Held κ) : Held κ → LockProg κ Op A α → Prop
  | held, .ret _ => held = final
  | held, .op (.acquire l m) k => (∀ l', held l' ≠ none → rank l' < rank l) ∧
      Disciplined rank allowed final (Function.update held l (some m)) (k ())
  | held, .op (.release l m) k => held l = some m ∧
      Disciplined rank allowed final (Function.update held l none) (k ())
  | held, .op (.act o) k => allowed o held ∧ ∀ a, Disciplined rank allowed final held (k a)

variable {rank : κ → ℕ} {allowed : Op → Held κ → Prop} {held mid final : Held κ}

theorem Disciplined.bind {p : LockProg κ Op A α} {f : α → LockProg κ Op A γ}
    (hp : Disciplined rank allowed mid held p) (hf : ∀ a, Disciplined rank allowed final mid (f a)) :
    Disciplined rank allowed final held (p >>= f) := by
  induction p generalizing held with
  | ret a =>
    obtain rfl : held = mid := hp
    exact hf a
  | op o k ih =>
    cases o with
    | acquire l m => exact ⟨hp.1, ih () hp.2⟩
    | release l m => exact ⟨hp.1, ih () hp.2⟩
    | act o => exact ⟨hp.1, fun a => ih a (hp.2 a)⟩

/-- **A critical section**: its lock is of higher rank than those that are held, and what is done there is disciplined
with the lock. -/
theorem Disciplined.locked {l : κ} {m : Mode} {p : LockProg κ Op A α} (hl : ∀ l', held l' ≠ none → rank l' < rank l)
    (hp : Disciplined rank allowed (Function.update held l (some m)) (Function.update held l (some m)) p) :
    Disciplined rank allowed held held (locked l m p) := by
  refine ⟨hl, hp.bind fun a => ⟨Function.update_self .., ?_⟩⟩
  have hfree : held l = none := by
    by_contra hne
    exact absurd (hl l hne) (Nat.lt_irrefl _)
  show Function.update (Function.update held l (some m)) l none = held
  rw [Function.update_idem, ← hfree, Function.update_eq_self]

end Disciplined

/-! ### The system -/

/-- A thread: its call, and what it has yet to do or has returned. -/
inductive Thread (γ α P : Type) where
  | idle
  | running (c : γ) (p : P)
  | returned (c : γ) (r : α)

/-- The call of a thread. -/
def Thread.call {γ α P : Type} : Thread γ α P → Option γ
  | .idle => none
  | .running c _ | .returned c _ => some c

/-- A memory with its threads. -/
structure Threads (κ Op : Type) (A : Op → Type) (γ α σ : Type) where
  mem : σ
  held : ℕ → Held κ
  thread : ℕ → Thread γ α (LockProg κ Op A α)

/-- What a thread does in a step. -/
inductive Deed (κ Op : Type) (A : Op → Type) (γ α : Type) where
  | start (c : γ)
  | acquire (l : κ) (m : Mode)
  | release (l : κ) (m : Mode)
  | act (o : Op) (a : A o)
  | finish (r : α)

namespace Threads

variable {κ Op : Type} {A : Op → Type} {γ α σ : Type}

/-- The lock may be acquired. -/
def Admits (w : Threads κ Op A γ α σ) (l : κ) : Mode → Prop
  | .shared => ∀ j, w.held j l ≠ some .exclusive
  | .exclusive => ∀ j, w.held j l = none

/-- The thread acquires the lock next. -/
def Awaits (w : Threads κ Op A γ α σ) (i : ℕ) (l : κ) (m : Mode) : Prop :=
  ∃ c k, w.thread i = .running c (.op (.acquire l m) k)

/-- The thread acts next. -/
def Acts (w : Threads κ Op A γ α σ) (i : ℕ) (o : Op) : Prop := ∃ c k, w.thread i = .running c (.op (.act o) k)

/-- The thread goes on. -/
def go (w : Threads κ Op A γ α σ) (i : ℕ) (t : Thread γ α (LockProg κ Op A α)) : Threads κ Op A γ α σ :=
  { w with thread := Function.update w.thread i t }

section Go

variable {w : Threads κ Op A γ α σ} {i j : ℕ} {t : Thread γ α (LockProg κ Op A α)}

@[simp] theorem go_mem : (w.go i t).mem = w.mem := rfl

@[simp] theorem go_held : (w.go i t).held = w.held := rfl

@[simp] theorem go_thread : (w.go i t).thread i = t := Function.update_self ..

theorem go_thread_of_ne (h : j ≠ i) : (w.go i t).thread j = w.thread j := Function.update_of_ne h ..

end Go

variable [DecidableEq κ]

/-- The thread holds a lock in another way. -/
def lock (w : Threads κ Op A γ α σ) (i : ℕ) (l : κ) (m : Option Mode) : Threads κ Op A γ α σ :=
  { w with held := Function.update w.held i (Function.update (w.held i) l m) }

section Lock

variable {w : Threads κ Op A γ α σ} {i j : ℕ} {l l' : κ} {m : Option Mode}

@[simp] theorem lock_mem : (w.lock i l m).mem = w.mem := rfl

@[simp] theorem lock_thread : (w.lock i l m).thread = w.thread := rfl

@[simp] theorem lock_held : (w.lock i l m).held i = Function.update (w.held i) l m := Function.update_self ..

theorem lock_held_of_ne (h : j ≠ i) : (w.lock i l m).held j = w.held j := Function.update_of_ne h ..

end Lock

/-- One step of the thread `i`. -/
inductive Step (program : γ → LockProg κ Op A α) (R : (o : Op) → σ → A o → σ → Prop) :
    Threads κ Op A γ α σ → ℕ × Deed κ Op A γ α → Threads κ Op A γ α σ → Prop
  | start {w : Threads κ Op A γ α σ} {i : ℕ} {c : γ} (h : w.thread i = .idle) :
      Step program R w (i, .start c) (w.go i (.running c (program c)))
  | acquire {w : Threads κ Op A γ α σ} {i : ℕ} {c : γ} {l : κ} {m : Mode} {k : Unit → LockProg κ Op A α}
      (h : w.thread i = .running c (.op (.acquire l m) k)) (ha : w.Admits l m) :
      Step program R w (i, .acquire l m) ((w.lock i l (some m)).go i (.running c (k ())))
  | release {w : Threads κ Op A γ α σ} {i : ℕ} {c : γ} {l : κ} {m : Mode} {k : Unit → LockProg κ Op A α}
      (h : w.thread i = .running c (.op (.release l m) k)) :
      Step program R w (i, .release l m) ((w.lock i l none).go i (.running c (k ())))
  | act {w : Threads κ Op A γ α σ} {i : ℕ} {c : γ} {o : Op} {k : A o → LockProg κ Op A α} {a : A o} {s : σ}
      (h : w.thread i = .running c (.op (.act o) k)) (hR : R o w.mem a s) :
      Step program R w (i, .act o a) ({ w with mem := s }.go i (.running c (k a)))
  | finish {w : Threads κ Op A γ α σ} {i : ℕ} {c : γ} {r : α} (h : w.thread i = .running c (.ret r)) :
      Step program R w (i, .finish r) (w.go i (.returned c r))

section Inversion

variable {program : γ → LockProg κ Op A α} {R : (o : Op) → σ → A o → σ → Prop} {w w' : Threads κ Op A γ α σ} {i : ℕ}
variable {d : Deed κ Op A γ α} {c : γ}

/-! What a thread does next. -/

theorem Step.of_idle (ht : Step program R w (i, d) w') (h : w.thread i = .idle) :
    ∃ c, d = .start c ∧ w' = w.go i (.running c (program c)) := by
  cases ht with
  | start h' => exact ⟨_, rfl, rfl⟩
  | acquire h' | release h' | act h' | finish h' =>
    rw [h] at h'
    cases h'

theorem Step.of_acquire {l : κ} {m : Mode} {k : Unit → LockProg κ Op A α} (ht : Step program R w (i, d) w')
    (h : w.thread i = .running c (.op (.acquire l m) k)) :
    d = .acquire l m ∧ w.Admits l m ∧ w' = (w.lock i l (some m)).go i (.running c (k ())) := by
  cases ht with
  | acquire h' ha =>
    rw [h] at h'
    cases h'
    exact ⟨rfl, ha, rfl⟩
  | start h' | release h' | act h' | finish h' =>
    rw [h] at h'
    cases h'

theorem Step.of_release {l : κ} {m : Mode} {k : Unit → LockProg κ Op A α} (ht : Step program R w (i, d) w')
    (h : w.thread i = .running c (.op (.release l m) k)) :
    d = .release l m ∧ w' = (w.lock i l none).go i (.running c (k ())) := by
  cases ht with
  | release h' =>
    rw [h] at h'
    cases h'
    exact ⟨rfl, rfl⟩
  | start h' | acquire h' | act h' | finish h' =>
    rw [h] at h'
    cases h'

theorem Step.of_act {o : Op} {k : A o → LockProg κ Op A α} (ht : Step program R w (i, d) w')
    (h : w.thread i = .running c (.op (.act o) k)) :
    ∃ a s, d = .act o a ∧ R o w.mem a s ∧ w' = { w with mem := s }.go i (.running c (k a)) := by
  cases ht with
  | act h' hR =>
    rw [h] at h'
    cases h'
    exact ⟨_, _, rfl, hR, rfl⟩
  | start h' | acquire h' | release h' | finish h' =>
    rw [h] at h'
    cases h'

theorem Step.of_ret {r : α} (ht : Step program R w (i, d) w') (h : w.thread i = .running c (.ret r)) :
    d = .finish r ∧ w' = w.go i (.returned c r) := by
  cases ht with
  | finish h' =>
    rw [h] at h'
    cases h'
    exact ⟨rfl, rfl⟩
  | start h' | acquire h' | release h' | act h' =>
    rw [h] at h'
    cases h'

theorem Step.of_returned {r : α} (ht : Step program R w (i, d) w') (h : w.thread i = .returned c r) : False := by
  cases ht with
  | start h' | acquire h' | release h' | act h' | finish h' =>
    rw [h] at h'
    cases h'

end Inversion

/-- **The system of the threads**, which starts with no call in a memory of `init`. -/
def system (init : σ → Prop) (program : γ → LockProg κ Op A α) (R : (o : Op) → σ → A o → σ → Prop) :
    Lts (Threads κ Op A γ α σ) (ℕ × Deed κ Op A γ α) where
  init w := init w.mem ∧ ∀ i, w.held i = noLocks ∧ w.thread i = .idle
  tr := Step program R

/-- The thread can take a step, though it lets those go first that wait to have a lock alone. -/
inductive Ready (R : (o : Op) → σ → A o → σ → Prop) (w : Threads κ Op A γ α σ) (i : ℕ) : Prop
  | acquire {l : κ} {m : Mode} (h : w.Awaits i l m) (ha : w.Admits l m)
      (hfirst : m = .shared → ∀ j, ¬ w.Awaits j l .exclusive)
  | release {c : γ} {l : κ} {m : Mode} {k : Unit → LockProg κ Op A α}
      (h : w.thread i = .running c (.op (.release l m) k))
  | act {o : Op} {a : A o} {s : σ} (h : w.Acts i o) (hR : R o w.mem a s)
  | finish {c : γ} {r : α} (h : w.thread i = .running c (.ret r))

variable {program : γ → LockProg κ Op A α} {R : (o : Op) → σ → A o → σ → Prop} {init : σ → Prop}
variable {w w' : Threads κ Op A γ α σ} {i j : ℕ} {e : ℕ × Deed κ Op A γ α}

theorem Ready.step (h : w.Ready R i) : ∃ d w', (∀ c, d ≠ .start c) ∧ Step program R w (i, d) w' := by
  cases h with
  | acquire h ha =>
    obtain ⟨c, k, h⟩ := h
    exact ⟨_, _, fun _ h => (by cases h), .acquire h ha⟩
  | release h => exact ⟨_, _, fun _ h => (by cases h), .release h⟩
  | act h hR =>
    obtain ⟨c, k, h⟩ := h
    exact ⟨_, _, fun _ h => (by cases h), .act h hR⟩
  | finish h => exact ⟨_, _, fun _ h => (by cases h), .finish h⟩

/-! ### The invariant -/

/-- **The invariant**: every thread is disciplined in what it has yet to do, one without a call holds nothing, and
a lock that is held alone is held by no other. -/
structure Orderly (rank : κ → ℕ) (allowed : Op → Held κ → Prop) (w : Threads κ Op A γ α σ) : Prop where
  idle : ∀ i, w.thread i = .idle → w.held i = noLocks
  returned : ∀ i c r, w.thread i = .returned c r → w.held i = noLocks
  running : ∀ i c p, w.thread i = .running c p → Disciplined rank allowed noLocks (w.held i) p
  alone : ∀ i j l, i ≠ j → w.held i l = some .exclusive → w.held j l = none

variable {rank : κ → ℕ} {allowed : Op → Held κ → Prop}

/-- A step of one thread keeps the invariant, if it keeps it for this thread. -/
theorem Orderly.go (ho : w.Orderly rank allowed) {t : Thread γ α (LockProg κ Op A α)}
    (hother : ∀ j, j ≠ i → w'.held j = w.held j ∧ w'.thread j = w.thread j) (ht : w'.thread i = t)
    (hidle : t = .idle → w'.held i = noLocks) (hret : ∀ c r, t = .returned c r → w'.held i = noLocks)
    (hrun : ∀ c p, t = .running c p → Disciplined rank allowed noLocks (w'.held i) p)
    (hheld : ∀ l, w'.held i l = w.held i l ∨ w'.held i l = none ∨ ∃ m, w'.held i l = some m ∧ w.Admits l m) :
    w'.Orderly rank allowed := by
  subst ht
  constructor
  · intro j hj
    by_cases hji : j = i
    · subst hji
      exact hidle hj
    · rw [(hother j hji).1]
      exact ho.idle j (by rw [← (hother j hji).2, hj])
  · intro j c r hj
    by_cases hji : j = i
    · subst hji
      exact hret c r hj
    · rw [(hother j hji).1]
      exact ho.returned j c r (by rw [← (hother j hji).2, hj])
  · intro j c p hj
    by_cases hji : j = i
    · subst hji
      exact hrun c p hj
    · rw [(hother j hji).1]
      exact ho.running j c p (by rw [← (hother j hji).2, hj])
  · intro j j' l hne hj
    by_cases hji : j = i
    · -- the thread holds the lock alone now: it has held it so, or it was admitted
      subst hji
      have hj' : w'.held j' = w.held j' := (hother j' fun e => hne e.symm).1
      rw [hj']
      rcases hheld l with h | h | ⟨m, h, ha⟩
      · exact ho.alone j j' l hne (h ▸ hj)
      · rw [h] at hj
        cases hj
      · rw [h] at hj
        cases hj
        exact ha j'
    · rw [(hother j hji).1] at hj
      by_cases hji' : j' = i
      · subst hji'
        rcases hheld l with h | h | ⟨m, h, ha⟩
        · rw [h]
          exact ho.alone j j' l hne hj
        · exact h
        · -- no lock that is held alone admits anyone
          cases m with
          | shared => exact absurd hj (ha j)
          | exclusive =>
            rw [ha j] at hj
            cases hj
      · rw [(hother j' hji').1]
        exact ho.alone j j' l hne hj

theorem Orderly.step (hprog : ∀ c, Disciplined rank allowed noLocks noLocks (program c)) (ho : w.Orderly rank allowed)
    (ht : Step program R w e w') : w'.Orderly rank allowed := by
  cases ht with
  | @start i c h =>
    have hi : w.held i = noLocks := ho.idle i h
    refine ho.go (i := i) (fun j hj => ⟨rfl, Function.update_of_ne hj _ _⟩) (Function.update_self ..) nofun nofun ?_
      fun l => .inl rfl
    rintro - - ⟨⟩
    show Disciplined rank allowed noLocks (w.held i) (program c)
    rw [hi]
    exact hprog c
  | @acquire i c l m k h ha =>
    have hd := ho.running i c _ h
    refine ho.go (i := i) (fun j hj => ⟨Function.update_of_ne hj _ _, Function.update_of_ne hj _ _⟩)
      (Function.update_self ..) nofun nofun ?_ fun l' => ?_
    · rintro - - ⟨⟩
      show Disciplined rank allowed noLocks (Function.update w.held i _ i) (k ())
      rw [Function.update_self]
      exact hd.2
    · show Function.update w.held i _ i l' = _ ∨ Function.update w.held i _ i l' = _ ∨
        ∃ m, Function.update w.held i _ i l' = _ ∧ _
      rw [Function.update_self]
      by_cases hl : l' = l
      · subst hl
        rw [Function.update_self]
        exact .inr (.inr ⟨m, rfl, ha⟩)
      · exact .inl (Function.update_of_ne hl _ _)
  | @release i c l m k h =>
    have hd := ho.running i c _ h
    refine ho.go (i := i) (fun j hj => ⟨Function.update_of_ne hj _ _, Function.update_of_ne hj _ _⟩)
      (Function.update_self ..) nofun nofun ?_ fun l' => ?_
    · rintro - - ⟨⟩
      show Disciplined rank allowed noLocks (Function.update w.held i _ i) (k ())
      rw [Function.update_self]
      exact hd.2
    · show Function.update w.held i _ i l' = _ ∨ Function.update w.held i _ i l' = _ ∨
        ∃ m, Function.update w.held i _ i l' = _ ∧ _
      rw [Function.update_self]
      by_cases hl : l' = l
      · subst hl
        exact .inr (.inl (Function.update_self ..))
      · exact .inl (Function.update_of_ne hl _ _)
  | @act i c o k a s h hR =>
    have hd := ho.running i c _ h
    refine ho.go (i := i) (fun j hj => ⟨rfl, Function.update_of_ne hj _ _⟩) (Function.update_self ..) nofun nofun ?_
      fun l => .inl rfl
    rintro - - ⟨⟩
    exact hd.2 a
  | @finish i c r h =>
    have hd : w.held i = noLocks := ho.running i c _ h
    exact ho.go (i := i) (fun j hj => ⟨rfl, Function.update_of_ne hj _ _⟩) (Function.update_self ..) nofun
      (fun _ _ _ => hd) nofun fun l => .inl rfl

theorem Reachable.orderly (hprog : ∀ c, Disciplined rank allowed noLocks noLocks (program c))
    (hr : (system init program R).Reachable w) : w.Orderly rank allowed := by
  refine Lts.Reachable.inv ?_ (fun w e w' _ ho ht => ho.step hprog ht) hr
  rintro w ⟨-, h0⟩
  refine ⟨fun i _ => (h0 i).1, fun i _ _ _ => (h0 i).1, fun i c p h => ?_, fun i j l _ h => ?_⟩
  · rw [(h0 i).2] at h
    cases h
  · rw [(h0 i).1] at h
    cases h

/-! ### What follows -/

theorem Orderly.excludes (ho : w.Orderly rank allowed) (hne : i ≠ j) : ¬ AtOdds (w.held i) (w.held j) := by
  rintro ⟨l, ⟨hi, hj⟩ | ⟨hi, hj⟩⟩
  · exact hj (ho.alone i j l hne hi)
  · exact hi (ho.alone j i l hne.symm hj)

/-- **No race**: actions that call for locks at odds are never next at the same time. -/
theorem Orderly.race_free (ho : w.Orderly rank allowed) {o o' : Op}
    (hodds : ∀ held held', allowed o held → allowed o' held' → AtOdds held held') (hne : i ≠ j)
    (hi : w.Acts i o) : ¬ w.Acts j o' := by
  rintro ⟨c', k', hj⟩
  obtain ⟨c, k, hi⟩ := hi
  exact ho.excludes hne (hodds _ _ (ho.running i c _ hi).1 (ho.running j c' _ hj).1)

/-- A thread that holds a lock and cannot take a step waits for a lock of higher rank. -/
theorem Orderly.blocked (ho : w.Orderly rank allowed) (hact : ∀ i o, w.Acts i o → ∃ a s, R o w.mem a s)
    (hstuck : ∀ i, ¬ w.Ready R i) {l : κ} (hl : w.held i l ≠ none) : ∃ l' m, w.Awaits i l' m ∧ rank l < rank l' := by
  cases ht : w.thread i with
  | idle => exact absurd (congrFun (ho.idle i ht) l) hl
  | returned c r => exact absurd (congrFun (ho.returned i c r ht) l) hl
  | running c p =>
    have hd := ho.running i c p ht
    cases p with
    | ret r => exact absurd (.finish ht) (hstuck i)
    | op o k =>
      cases o with
      | acquire l' m => exact ⟨l', m, ⟨c, k, ht⟩, hd.1 l hl⟩
      | release l' m => exact absurd (.release ht) (hstuck i)
      | act o =>
        obtain ⟨a, s, hR⟩ := hact i o ⟨c, k, ht⟩
        exact absurd (.act ⟨c, k, ht⟩ hR) (hstuck i)

/-- **No deadlock.**  While calls are under way and no action is stuck, a thread can take a step: of the locks that
are waited for, one of the highest rank is held by no thread. -/
theorem Orderly.progress (ho : w.Orderly rank allowed) {N : ℕ} (hN : ∀ l, rank l < N)
    (hact : ∀ i o, w.Acts i o → ∃ a s, R o w.mem a s) {c : γ} {p : LockProg κ Op A α}
    (hi : w.thread i = .running c p) : ∃ j, w.Ready R j := by
  by_contra hnone
  have hstuck : ∀ j, ¬ w.Ready R j := fun j hj => hnone ⟨j, hj⟩
  -- by induction on the locks of higher rank, no lock is waited for
  have hawaits : ∀ n j l m, N - rank l ≤ n → ¬ w.Awaits j l m := by
    intro n
    induction n with
    | zero =>
      intro j l m hn
      have := hN l
      omega
    | succ n ih =>
      intro j l m hn hj
      have hfree : ∀ j', w.held j' l = none := by
        intro j'
        by_contra hheld
        obtain ⟨l', m', hj', hlt⟩ := ho.blocked hact hstuck hheld
        exact ih j' l' m' (by omega) hj'
      have halone : ∀ j', ¬ w.Awaits j' l .exclusive := fun j' hj' => hstuck j' (.acquire hj' hfree nofun)
      cases m with
      | shared =>
        refine hstuck j (.acquire hj (fun j' => ?_) fun _ => halone)
        rw [hfree j']
        exact nofun
      | exclusive => exact halone j hj
  cases p with
  | ret r => exact hstuck i (.finish hi)
  | op o k =>
    cases o with
    | acquire l m => exact hawaits N i l m (by omega) ⟨c, k, hi⟩
    | release l m => exact hstuck i (.release hi)
    | act o =>
      obtain ⟨a, s, hR⟩ := hact i o ⟨c, k, hi⟩
      exact hstuck i (.act ⟨c, k, hi⟩ hR)

/-! ### All calls return -/

/-- A thread that has gone on, and what it was. -/
inductive Later : Thread γ α (LockProg κ Op A α) → Thread γ α (LockProg κ Op A α) → Prop
  | op {c : γ} {o : LockOp κ Op} {k : o.Ans A → LockProg κ Op A α} (a : o.Ans A) :
      Later (.running c (k a)) (.running c (.op o k))
  | ret {c : γ} {r : α} : Later (.returned c r) (.running c (.ret r))

omit [DecidableEq κ] in
theorem Later.call_eq {t t' : Thread γ α (LockProg κ Op A α)} (h : Later t' t) : t'.call = t.call := by
  cases h <;> rfl

omit [DecidableEq κ] in
theorem later_wf :
    WellFounded (Later : Thread γ α (LockProg κ Op A α) → Thread γ α (LockProg κ Op A α) → Prop) := by
  have hret (c : γ) (r : α) : Acc Later (.returned c r : Thread γ α (LockProg κ Op A α)) := ⟨_, nofun⟩
  refine ⟨fun t => ?_⟩
  cases t with
  | idle => exact ⟨_, nofun⟩
  | returned c r => exact hret c r
  | running c p =>
    induction p with
    | ret r =>
      refine ⟨_, ?_⟩
      rintro _ ⟨⟩
      exact hret c r
    | op o k ih =>
      refine ⟨_, ?_⟩
      rintro _ ⟨a⟩
      exact ih a

/-- No call is started. -/
def Quiet (_ : Threads κ Op A γ α σ) (x : ℕ × Deed κ Op A γ α) : Prop := ∀ c, x.2 ≠ .start c

/-- A thread that takes a step has gone on, and no other one has. -/
theorem Step.later {d : Deed κ Op A γ α} (ht : Step program R w (i, d) w') (hd : ∀ c, d ≠ .start c) :
    Later (w'.thread i) (w.thread i) ∧ ∀ j, j ≠ i → w'.thread j = w.thread j := by
  have hgo {w₁ : Threads κ Op A γ α σ} {t : Thread γ α (LockProg κ Op A α)} (h₁ : w₁.thread = w.thread)
      (hl : Later t (w.thread i)) :
      Later ((w₁.go i t).thread i) (w.thread i) ∧ ∀ j, j ≠ i → (w₁.go i t).thread j = w.thread j := by
    refine ⟨by rwa [go_thread], fun j hj => ?_⟩
    rw [go_thread_of_ne hj, h₁]
  cases ht with
  | start h => exact absurd rfl (hd _)
  | @acquire _ c l m k h => exact hgo rfl (by rw [h]; exact .op (o := .acquire l m) (k := k) ())
  | @release _ c l m k h => exact hgo rfl (by rw [h]; exact .op (o := .release l m) (k := k) ())
  | @act _ c o k a _ h => exact hgo rfl (by rw [h]; exact .op (o := .act o) (k := k) a)
  | finish h => exact hgo rfl (by rw [h]; exact .ret)

theorem Reachable.finite (hr : (system init program R).Reachable w) :
    ∃ S : Finset ℕ, ∀ i ∉ S, w.thread i = .idle := by
  refine Lts.Reachable.inv (P := fun w => ∃ S : Finset ℕ, ∀ i ∉ S, w.thread i = .idle)
    (fun w hw => ⟨∅, fun i _ => (hw.2 i).2⟩) ?_ hr
  rintro w ⟨i, d⟩ w' - ⟨S, hS⟩ ht
  refine ⟨insert i S, fun j hj => ?_⟩
  rw [Finset.mem_insert, not_or] at hj
  have hother : w'.thread j = w.thread j := by
    cases ht <;> exact go_thread_of_ne hj.1
  rw [hother, hS j hj.2]

/-- **All calls return.**  Once no more calls are started, every schedule comes to a state in which none is under way,
if a thread can take a step while calls are. -/
theorem inevitable {G : Threads κ Op A γ α σ → ℕ × Deed κ Op A γ α → Prop} {P : Threads κ Op A γ α σ → Prop}
    (hG : ∀ w x, Quiet w x → G w x)
    (hready : ∀ w, ((system init program R).guard G).Reachable w → ∀ i c p, w.thread i = .running c p →
      ∃ j, w.Ready R j)
    (hP : ∀ w', ((system init program R).guard G).Reachable w' → (∀ i c p, w'.thread i ≠ .running c p) →
      (∀ i, (w'.thread i).call = (w.thread i).call) → P w')
    (hr : ((system init program R).guard G).Reachable w) : ((system init program R).guard Quiet).Inevitable P w := by
  obtain ⟨h, hrun⟩ := hr
  obtain ⟨S, hS⟩ := Reachable.finite ⟨h, hrun.of_guard⟩
  have hwf : WellFounded (Later : Thread γ α (LockProg κ Op A α) → Thread γ α (LockProg κ Op A α) → Prop) := later_wf
  have := hwf.irrefl
  -- a step replaces one thread of `S` by a later one
  refine Lts.Inevitable.of_measure hwf.cutExpand (fun w' => S.val.map w'.thread)
    (I := fun w' => ((system init program R).guard G).Reachable w' ∧ (∀ i ∉ S, w'.thread i = .idle) ∧
      ∀ i, (w'.thread i).call = (w.thread i).call) ?_ ?_ ⟨⟨h, hrun⟩, hS, fun _ => rfl⟩
  · rintro w₁ ⟨i, d⟩ w₂ ⟨hr, hS, hcall⟩ ⟨hquiet, ht⟩
    obtain ⟨hlater, hother⟩ := ht.later hquiet
    have hi : i ∈ S := by
      by_contra hi
      rw [hS i hi] at hlater
      generalize w₂.thread i = t at hlater
      cases hlater
    refine ⟨⟨hr.step ⟨hG _ _ hquiet, ht⟩, fun j hj => ?_, fun j => ?_⟩, ?_⟩
    · rw [hother j (by rintro rfl; exact hj hi), hS j hj]
    · by_cases hj : j = i
      · rw [hj, hlater.call_eq, hcall i]
      · rw [hother j hj, hcall j]
    · have hmap : (S.erase i).val.map w₂.thread = (S.erase i).val.map w₁.thread :=
        Multiset.map_congr rfl fun j hj => hother j (Finset.ne_of_mem_erase hj)
      show Relation.CutExpand Later (S.val.map w₂.thread) (S.val.map w₁.thread)
      rw [← Finset.insert_erase hi, Finset.insert_val_of_notMem (Finset.notMem_erase i S), Multiset.map_cons,
        Multiset.map_cons, hmap]
      exact Relation.cutExpand_single_add hlater _
  · rintro w₁ ⟨hr, -, hcall⟩
    by_cases hrun : ∃ i c p, w₁.thread i = .running c p
    · obtain ⟨i, c, p, hi⟩ := hrun
      obtain ⟨j, hj⟩ := hready w₁ hr i c p hi
      obtain ⟨d, w₂, hd, ht⟩ := hj.step
      exact .inr ⟨(j, d), w₂, hd, ht⟩
    · exact .inl (hP w₁ hr (fun i c p hi => hrun ⟨i, c, p, hi⟩) hcall)

/-! ### A thread alone -/

/-- **A thread that finds the others without locks** can go on to its end, whatever its program can come to alone. -/
theorem steps_alone {G : Threads κ Op A γ α σ → ℕ × Deed κ Op A γ α → Prop}
    (hG : ∀ w i d, (∀ c, d ≠ .start c) → G w (i, d)) {c : γ} {p : LockProg κ Op A α} {s s' : σ} {r : α}
    (hp : p.Runs (Alone R) s r s') (hmem : w.mem = s) (hi : w.thread i = .running c p)
    (hd : Disciplined rank allowed noLocks (w.held i) p) (hothers : ∀ j, j ≠ i → w.held j = noLocks) :
    ∃ h w', ((system init program R).guard G).Steps w h w' ∧ (i, .finish r) ∈ h ∧ w'.mem = s' ∧
      (∀ j, w'.held j = noLocks) ∧ w'.thread = Function.update w.thread i (.returned c r) := by
  -- by induction on the run of the program
  induction hp generalizing w with
  | @ret r s =>
    have hheld : w.held i = noLocks := hd
    have hstep : ((system init program R).guard G).tr w (i, .finish r) (w.go i (.returned c r)) :=
      ⟨hG _ _ _ (by rintro c ⟨⟩), .finish hi⟩
    refine ⟨[(i, .finish r)], w.go i (.returned c r), .cons .nil hstep, by simp, hmem,
      fun j => ?_, rfl⟩
    by_cases hj : j = i
    · rw [hj]
      exact hheld
    · exact hothers j hj
  | @op op k s s₁ s' b r ho hk ih =>
    -- the thread takes its step, and then the steps that are left
    have hstep {d : Deed κ Op A γ α} {w₁ : Threads κ Op A γ α σ} (hne : ∀ c, d ≠ .start c)
        (ht : Step program R w (i, d) w₁) (h₁ : w₁.thread = Function.update w.thread i (.running c (k b)))
        (hx : ∃ h w', ((system init program R).guard G).Steps w₁ h w' ∧ (i, .finish r) ∈ h ∧ w'.mem = s' ∧
          (∀ j, w'.held j = noLocks) ∧ w'.thread = Function.update w₁.thread i (.returned c r)) :
        ∃ h w', ((system init program R).guard G).Steps w h w' ∧ (i, .finish r) ∈ h ∧ w'.mem = s' ∧
          (∀ j, w'.held j = noLocks) ∧ w'.thread = Function.update w.thread i (.returned c r) := by
      obtain ⟨h, w', hs, hf, hm, hl, ht'⟩ := hx
      refine ⟨h ++ [(i, d)], w', Lts.Steps.trans (.cons .nil ⟨hG _ _ _ hne, ht⟩) hs, by simp [hf], hm, hl, ?_⟩
      rw [ht', h₁, Function.update_idem]
    cases ho with
    | @acquire l m s =>
      have hfree : w.held i l = none := by
        by_contra hne
        exact absurd (hd.1 l hne) (Nat.lt_irrefl _)
      have hadmits : w.Admits l m := by
        have hnone (j : ℕ) : w.held j l = none := by
          by_cases hj : j = i
          · rw [hj, hfree]
          · rw [hothers j hj]
            rfl
        cases m with
        | shared => exact fun j => by rw [hnone j]; nofun
        | exclusive => exact hnone
      refine hstep (by rintro c ⟨⟩) (.acquire hi hadmits) rfl (ih hmem (go_thread ..) ?_ fun j hj => ?_)
      · rw [go_held, lock_held]
        exact hd.2
      · rw [go_held, lock_held_of_ne hj, hothers j hj]
    | @release l m s =>
      refine hstep (by rintro c ⟨⟩) (.release hi) rfl (ih hmem (go_thread ..) ?_ fun j hj => ?_)
      · rw [go_held, lock_held]
        exact hd.2
      · rw [go_held, lock_held_of_ne hj, hothers j hj]
    | act hR =>
      subst hmem
      exact hstep (by rintro c ⟨⟩) (.act hi hR) rfl (ih rfl (go_thread ..) (hd.2 _) hothers)

end Threads

end HyScanCache.Lib
