import HyScanCache.Lib.Linearization

/-!
# Calls within calls

A program may carry out one call of another program, or none, and return something that depends on what the call
returns (`Makes`).  Threads that run such programs do what threads that run the calls do, but for those that make none
(`mirrored`), so that what is known of the calls is known of the programs that make them.

* `Told`: what a history says of a thread is what the thread is;
* `Mirrors`: the memory and the locks are the same, the threads are those of the calls, and a thread that makes a call
  and has returned before another one was started has returned from its call before the other one has started its own.
-/

namespace HyScanCache.Lib

variable {κ Op : Type} {A : Op → Type} {γ γ' α α' α'' σ : Type}

/-! ### Programs -/

/-- **A program that makes a call of `program`, or none**, and returns what `Q` allows; the call is one of `F`. -/
inductive Makes (program : γ → LockProg κ Op A α) (F : γ → Prop) (Q : Option (γ × α) → α' → Prop) :
    LockProg κ Op A α' → Prop
  | returns {r : α'} (h : Q none r) : Makes program F Q (.ret r)
  | calls {c : γ} {g : α → α'} (hc : F c) (h : ∀ a, Q (some (c, a)) (g a)) :
      Makes program F Q (program c >>= fun a => .ret (g a))

section Programs

variable {program : γ → LockProg κ Op A α} {F : γ → Prop} {Q : Option (γ × α) → α' → Prop}
variable {Q' : Option (γ × α) → α'' → Prop} {p : LockProg κ Op A α'}

theorem Makes.bind {f : α' → LockProg κ Op A α''} (hp : Makes program F Q p)
    (hnone : ∀ r, Q none r → Makes program F Q' (f r))
    (hone : ∀ x r, Q (some x) r → ∃ r', f r = .ret r' ∧ Q' (some x) r') : Makes program F Q' (p >>= f) := by
  cases hp with
  | returns h => exact hnone _ h
  | @calls c g hc h =>
    have hret (a : α) : ∃ r', f (g a) = .ret r' ∧ Q' (some (c, a)) r' := hone (c, a) (g a) (h a)
    choose g' hf hg' using hret
    have he : ((program c >>= fun a => .ret (g a)) >>= f) = program c >>= fun a => .ret (g' a) := by
      refine (Prog.bind_assoc (program c) (fun a => .ret (g a)) f).trans (congrArg _ (funext fun a => ?_))
      exact hf a
    rw [he]
    exact .calls hc hg'

theorem Makes.mono {Q' : Option (γ × α) → α' → Prop} (hp : Makes program F Q p) (hQ : ∀ x r, Q x r → Q' x r) :
    Makes program F Q' p := by
  cases hp with
  | returns h => exact .returns (hQ _ _ h)
  | calls hc h => exact .calls hc fun a => hQ _ _ (h a)

end Programs

/-! ### What a history says of a thread -/

/-- The history of the thread `i` is that of a thread which is as it is. -/
def Told {P : Type} (h : List (ℕ × Deed κ Op A γ α)) (i : ℕ) : Thread γ α P → Prop
  | .idle => (∀ c, (i, .start c) ∉ h) ∧ ∀ r, (i, .finish r) ∉ h
  | .running c _ => (∀ c', (i, .start c') ∈ h ↔ c' = c) ∧ ∀ r, (i, .finish r) ∉ h
  | .returned c r => (∀ c', (i, .start c') ∈ h ↔ c' = c) ∧ ∀ r', (i, .finish r') ∈ h ↔ r' = r

section Told

variable {P : Type} {h : List (ℕ × Deed κ Op A γ α)} {i j : ℕ} {d : Deed κ Op A γ α} {t : Thread γ α P} {c : γ}
variable {r : α}

theorem Told.cons_of_ne (ht : Told h i t) (hne : i ≠ j) : Told ((j, d) :: h) i t := by
  have hmem (d' : Deed κ Op A γ α) : (i, d') ∈ (j, d) :: h ↔ (i, d') ∈ h := by simp [hne]
  cases t <;> simpa only [Told, hmem] using ht

theorem Told.silent {p p' : P} (ht : Told h i (.running c p)) (hs : ∀ c, d ≠ .start c) (hf : ∀ r, d ≠ .finish r) :
    Told ((i, d) :: h) i (.running c p') := by
  have hstart (c' : γ) : (i, .start c') ∈ (i, d) :: h ↔ (i, .start c') ∈ h := by simp [(hs c').symm]
  have hfinish (r : α) : (i, .finish r) ∈ (i, d) :: h ↔ (i, .finish r) ∈ h := by simp [(hf r).symm]
  simpa only [Told, hstart, hfinish] using ht

theorem Told.started (ht : Told h i t) (hs : (i, .start c) ∈ h) :
    (∃ p, t = .running c p) ∨ ∃ r, t = .returned c r := by
  cases t with
  | idle => exact absurd hs (ht.1 c)
  | running c' p =>
    obtain rfl : c = c' := (ht.1 c).1 hs
    exact .inl ⟨p, rfl⟩
  | returned c' r =>
    obtain rfl : c = c' := (ht.1 c).1 hs
    exact .inr ⟨r, rfl⟩

theorem Told.finished (ht : Told h i t) (hf : (i, .finish r) ∈ h) : ∃ c, t = .returned c r := by
  cases t with
  | idle => exact absurd hf (ht.2 r)
  | running c p => exact absurd hf (ht.2 r)
  | returned c r' =>
    obtain rfl : r = r' := (ht.2 r).1 hf
    exact ⟨c, rfl⟩

end Told

/-! ### Threads and their calls -/

/-- A thread, and the thread that carries out the call it makes. -/
inductive Shadows (Q : γ' → Option (γ × α) → α' → Prop) :
    Thread γ' α' (LockProg κ Op A α') → Thread γ α (LockProg κ Op A α) → Prop
  | idle : Shadows Q .idle .idle
  /-- It makes no call. -/
  | alone {c' : γ'} {r : α'} (h : Q c' none r) : Shadows Q (.running c' (.ret r)) .idle
  | running {c' : γ'} {c : γ} {p : LockProg κ Op A α} {g : α → α'} (h : ∀ a, Q c' (some (c, a)) (g a)) :
      Shadows Q (.running c' (p >>= fun a => .ret (g a))) (.running c p)
  | done {c' : γ'} {r : α'} (h : Q c' none r) : Shadows Q (.returned c' r) .idle
  | returned {c' : γ'} {c : γ} {a : α} {r : α'} (h : Q c' (some (c, a)) r) :
      Shadows Q (.returned c' r) (.returned c a)

/-- **The threads that carry out the calls do what the threads do that make them.** -/
structure Mirrors (Q : γ' → Option (γ × α) → α' → Prop) (h' : List (ℕ × Deed κ Op A γ' α'))
    (w' : Threads κ Op A γ' α' σ) (h : List (ℕ × Deed κ Op A γ α)) (w : Threads κ Op A γ α σ) : Prop where
  mem : w.mem = w'.mem
  held : w.held = w'.held
  thread : ∀ i, Shadows Q (w'.thread i) (w.thread i)
  order : ∀ i j, Precedes h' i j → (∃ c, (i, .start c) ∈ h) → (∃ c, (j, .start c) ∈ h) → Precedes h i j

section Mirrors

variable {Q : γ' → Option (γ × α) → α' → Prop} {F : γ → Prop}
variable {h' : List (ℕ × Deed κ Op A γ' α')} {w' w₁' : Threads κ Op A γ' α' σ}
variable {h : List (ℕ × Deed κ Op A γ α)} {w : Threads κ Op A γ α σ} {i j : ℕ}
variable {program : γ → LockProg κ Op A α} {program' : γ' → LockProg κ Op A α'}

theorem Precedes.cons (hp : Precedes h i j) (x : ℕ × Deed κ Op A γ α) : Precedes (x :: h) i j := by
  obtain ⟨h₂, c, h₁, r, rfl, hr⟩ := hp
  exact ⟨x :: h₂, c, h₁, r, rfl, hr⟩

theorem Shadows.update {f' : ℕ → Thread γ' α' (LockProg κ Op A α')} {f : ℕ → Thread γ α (LockProg κ Op A α)}
    {t' : Thread γ' α' (LockProg κ Op A α')} {t : Thread γ α (LockProg κ Op A α)}
    (hs : ∀ j, Shadows Q (f' j) (f j)) (ht : Shadows Q t' t) (j : ℕ) :
    Shadows Q (Function.update f' i t' j) (Function.update f i t j) := by
  by_cases hj : j = i
  · subst hj
    rw [Function.update_self, Function.update_self]
    exact ht
  · rw [Function.update_of_ne hj, Function.update_of_ne hj]
    exact hs j

theorem Mirrors.order_cons (hm : Mirrors Q h' w' h w) {d' : Deed κ Op A γ' α'} {d : Deed κ Op A γ α}
    (hd' : ∀ c, d' ≠ .start c) (hd : ∀ c, d ≠ .start c) (a b : ℕ) (hp : Precedes ((i, d') :: h') a b)
    (ha : ∃ c, (a, .start c) ∈ (i, d) :: h) (hb : ∃ c, (b, .start c) ∈ (i, d) :: h) : Precedes ((i, d) :: h) a b := by
  have hold (k : ℕ) (hk : ∃ c, (k, .start c) ∈ (i, d) :: h) : ∃ c, (k, .start c) ∈ h := by
    obtain ⟨c, hc⟩ := hk
    refine ⟨c, (List.mem_cons.1 hc).resolve_left fun e => hd c ?_⟩
    exact (Prod.mk.inj e).2.symm
  exact (hm.order a b (Linearization.precedes_cons hd' hp) (hold a ha) (hold b hb)).cons _

theorem Mirrors.finished (hm : Mirrors Q h' w' h w) (htold' : ∀ i, Told h' i (w'.thread i))
    (htold : ∀ i, Told h i (w.thread i)) {r' : α'} (hf : (i, .finish r') ∈ h') (hs : ∃ c, (i, .start c) ∈ h) :
    ∃ r, (i, .finish r) ∈ h := by
  obtain ⟨c', hret⟩ := (htold' i).finished hf
  obtain ⟨c, hs⟩ := hs
  have hsh := hm.thread i
  rw [hret] at hsh
  have hi := htold i
  generalize w.thread i = t at hsh hi
  cases hsh with
  | done => exact absurd hs (hi.1 c)
  | @returned _ _ a => exact ⟨a, (hi.2 a).2 rfl⟩

/-- A thread starts: its shadow does, or it will make no call. -/
theorem Mirrors.start (hm : Mirrors Q h' w' h w) (htold' : ∀ i, Told h' i (w'.thread i))
    (htold : ∀ i, Told h i (w.thread i)) {c' : γ'} (hi' : w'.thread i = .idle)
    (hp : Makes program F (Q c') (program' c')) :
    Mirrors Q ((i, .start c') :: h') (w'.go i (.running c' (program' c'))) h w ∨
      ∃ c, F c ∧ w.thread i = .idle ∧ Mirrors Q ((i, .start c') :: h') (w'.go i (.running c' (program' c')))
        ((i, .start c) :: h) (w.go i (.running c (program c))) := by
  have hi : w.thread i = .idle := by
    have hsh := hm.thread i
    rw [hi'] at hsh
    generalize w.thread i = t at hsh
    cases hsh
    rfl
  have hno : ∀ c, (i, .start c) ∉ h := by
    have := htold i
    rw [hi] at this
    exact this.1
  -- what precedes the call that is started now has returned
  have hnew (a b : ℕ) (hpre : Precedes ((i, .start c') :: h') a b) :
      Precedes h' a b ∨ b = i ∧ ∃ r, (a, .finish r) ∈ h' := by
    obtain ⟨h₂, c, h₁, r, he, hr⟩ := hpre
    cases h₂ with
    | nil =>
      rw [List.nil_append, List.cons.injEq, Prod.mk.injEq] at he
      rw [he.2]
      exact .inr ⟨he.1.1.symm, r, hr⟩
    | cons x h₂ =>
      rw [List.cons_append, List.cons.injEq] at he
      exact .inl ⟨h₂, c, h₁, r, he.2, hr⟩
  generalize hq : program' c' = q at hp ⊢
  cases hp with
  | @returns r hQ =>
    refine .inl ⟨hm.mem, hm.held, fun j => ?_, fun a b hpre ha hb => ?_⟩
    · rw [← Function.update_eq_self i w.thread, hi]
      exact Shadows.update hm.thread (.alone hQ) j
    · rcases hnew a b hpre with hpre | ⟨rfl, -⟩
      · exact hm.order a b hpre ha hb
      · obtain ⟨c, hc⟩ := hb
        exact absurd hc (hno c)
  | @calls c g hc hQ =>
    refine .inr ⟨c, hc, hi, hm.mem, hm.held, Shadows.update hm.thread (.running hQ), fun a b hpre ha hb => ?_⟩
    have hold (k : ℕ) (hne : k ≠ i) (hk : ∃ c₁, (k, .start c₁) ∈ (i, .start c) :: h) : ∃ c₁, (k, .start c₁) ∈ h := by
      obtain ⟨c₁, hc₁⟩ := hk
      refine ⟨c₁, (List.mem_cons.1 hc₁).resolve_left fun e => hne ?_⟩
      exact (Prod.mk.inj e).1
    have hne (r' : α') (k : ℕ) (hf : (k, .finish r') ∈ h') : k ≠ i := by
      rintro rfl
      have := htold' k
      rw [hi'] at this
      exact this.2 r' hf
    rcases hnew a b hpre with hpre | ⟨rfl, r', hf⟩
    · obtain ⟨h₂, c₂, h₁, r, he, hr⟩ := hpre
      have hnea : a ≠ i := hne r a (by simp [he, hr])
      have hneb : b ≠ i := by
        rintro rfl
        have := htold' b
        rw [hi'] at this
        exact this.1 c₂ (by simp [he])
      exact (hm.order a b ⟨h₂, c₂, h₁, r, he, hr⟩ (hold a hnea ha) (hold b hneb hb)).cons _
    · obtain ⟨r, hr⟩ := hm.finished htold' htold hf (hold a (hne r' a hf) ha)
      exact ⟨[], c, h, r, rfl, hr⟩

theorem Shadows.of_op {c' : γ'} {o : LockOp κ Op} {k : o.Ans A → LockProg κ Op A α'}
    {t : Thread γ α (LockProg κ Op A α)} (hs : Shadows Q (.running c' (.op o k)) t) :
    ∃ (c : γ) (k₁ : o.Ans A → LockProg κ Op A α) (g : α → α'), t = .running c (.op o k₁) ∧
      (∀ x, k x = k₁ x >>= fun a => .ret (g a)) ∧ ∀ a, Q c' (some (c, a)) (g a) := by
  generalize hq : Thread.running c' (Prog.op o k) = t' at hs
  cases hs with
  | idle | alone | done | returned => cases hq
  | @running _ c p g h =>
    cases p with
    | ret a => cases hq
    | op o' k₁ =>
      cases hq
      exact ⟨c, k₁, g, rfl, fun _ => rfl, h⟩

theorem Mirrors.acts (hm : Mirrors Q h' w' h w) {o : Op} (ha : w'.Acts i o) : w.Acts i o := by
  obtain ⟨c', k, hi'⟩ := ha
  have hsh := hm.thread i
  rw [hi'] at hsh
  obtain ⟨c, k₁, g, hi, -⟩ := hsh.of_op
  exact ⟨c, k₁, hi⟩

theorem Shadows.of_ret {c' : γ'} {r : α'} {t : Thread γ α (LockProg κ Op A α)}
    (hs : Shadows Q (.running c' (.ret r)) t) :
    t = .idle ∧ Q c' none r ∨ ∃ c a, t = .running c (.ret a) ∧ Q c' (some (c, a)) r := by
  generalize hq : Thread.running c' (Prog.ret r) = t' at hs
  cases hs with
  | idle | done | returned => cases hq
  | alone h =>
    cases hq
    exact .inl ⟨rfl, h⟩
  | @running _ c p g h =>
    cases p with
    | ret a =>
      cases hq
      exact .inr ⟨c, a, rfl, h a⟩
    | op o' k₁ => cases hq

end Mirrors

section Systems

variable [DecidableEq κ] {program : γ → LockProg κ Op A α} {program' : γ' → LockProg κ Op A α'}
variable {R : (o : Op) → σ → A o → σ → Prop} {init : σ → Prop} {F : γ → Prop}
variable {Q : γ' → Option (γ × α) → α' → Prop} {h' : List (ℕ × Deed κ Op A γ' α')} {w' w₁' : Threads κ Op A γ' α' σ}
variable {h : List (ℕ × Deed κ Op A γ α)} {w : Threads κ Op A γ α σ} {i : ℕ}

theorem Threads.told {G : Threads κ Op A γ α σ → ℕ × Deed κ Op A γ α → Prop}
    (hr : ((Threads.system init program R).guard G).Run h w) (i : ℕ) :
    Told h i (w.thread i) := by
  refine Lts.Run.inv (L := (Threads.system init program R).guard G) (P := fun h w => ∀ i, Told h i (w.thread i))
    ?_ ?_ hr i
  · rintro w ⟨-, h0⟩ i
    rw [(h0 i).2]
    exact ⟨nofun, nofun⟩
  · rintro h w ⟨j, d⟩ w' - ih ⟨-, ht⟩ i
    by_cases hij : i = j
    · subst hij
      have hi := ih i
      cases ht with
      | start hw =>
        rw [hw] at hi
        rw [Threads.go_thread]
        exact ⟨fun c' => by simp [hi.1], fun r => by simp [hi.2]⟩
      | acquire hw | release hw | act hw =>
        rw [hw] at hi
        rw [Threads.go_thread]
        exact hi.silent nofun nofun
      | finish hw =>
        rw [hw] at hi
        rw [Threads.go_thread]
        exact ⟨fun c' => by simp [hi.1], fun r' => by simp [hi.2]⟩
    · have hsame : w'.thread i = w.thread i := by
        cases ht <;> exact Threads.go_thread_of_ne hij
      rw [hsame]
      exact (ih i).cons_of_ne hij

/-- A step of one of the threads is a step of its shadow, or of its own. -/
theorem Mirrors.step (hm : Mirrors Q h' w' h w) (htold' : ∀ i, Told h' i (w'.thread i))
    (htold : ∀ i, Told h i (w.thread i)) {d' : Deed κ Op A γ' α'} (ht : Threads.Step program' R w' (i, d') w₁')
    (hp : ∀ c', d' = .start c' → Makes program F (Q c') (program' c')) :
    Mirrors Q ((i, d') :: h') w₁' h w ∨ ∃ d w₁, (∀ c, d = .start c → F c) ∧ Threads.Step program R w (i, d) w₁ ∧
      Mirrors Q ((i, d') :: h') w₁' ((i, d) :: h) w₁ := by
  have hsh := hm.thread i
  cases ht with
  | start hi' =>
    refine (hm.start htold' htold hi' (hp _ rfl)).imp id ?_
    rintro ⟨c, hc, hi, hm'⟩
    exact ⟨.start c, _, by rintro _ ⟨⟩; exact hc, .start hi, hm'⟩
  | acquire hi' ha =>
    rw [hi'] at hsh
    obtain ⟨c, k₁, g, hi, hk, hQ⟩ := hsh.of_op
    refine .inr ⟨.acquire _ _, _, nofun, .acquire hi ?_, hm.mem, ?_, ?_, hm.order_cons nofun nofun⟩
    · unfold Threads.Admits at ha ⊢
      rw [hm.held]
      exact ha
    · simp only [Threads.go_held, Threads.lock, hm.held]
    · rw [hk]
      exact Shadows.update hm.thread (.running hQ)
  | release hi' =>
    rw [hi'] at hsh
    obtain ⟨c, k₁, g, hi, hk, hQ⟩ := hsh.of_op
    refine .inr ⟨.release _ _, _, nofun, .release hi, hm.mem, ?_, ?_, hm.order_cons nofun nofun⟩
    · simp only [Threads.go_held, Threads.lock, hm.held]
    · rw [hk]
      exact Shadows.update hm.thread (.running hQ)
  | act hi' hR =>
    rw [hi'] at hsh
    obtain ⟨c, k₁, g, hi, hk, hQ⟩ := hsh.of_op
    rw [← hm.mem] at hR
    refine .inr ⟨.act _ _, _, nofun, .act hi hR, rfl, hm.held, ?_, hm.order_cons nofun nofun⟩
    rw [hk]
    exact Shadows.update hm.thread (.running hQ)
  | finish hi' =>
    rw [hi'] at hsh
    rcases hsh.of_ret with ⟨hi, hQ⟩ | ⟨c, a, hi, hQ⟩
    · refine .inl ⟨hm.mem, hm.held, ?_, fun a b hpre => ?_⟩
      · rw [← Function.update_eq_self i w.thread, hi]
        exact Shadows.update hm.thread (.done hQ)
      · exact hm.order a b (Linearization.precedes_cons (by rintro c ⟨⟩) hpre)
    · exact .inr ⟨.finish a, _, nofun, .finish hi, hm.mem, hm.held, Shadows.update hm.thread (.returned hQ),
        hm.order_cons nofun nofun⟩

theorem Mirrors.orderly {rank : κ → ℕ} {allowed : Op → Held κ → Prop} (hm : Mirrors Q h' w' h w)
    (ho : w.Orderly rank allowed) : w'.Orderly rank allowed := by
  refine ⟨fun i hi => ?_, fun i c r hi => ?_, fun i c p hi => ?_, fun i j l hne hi => ?_⟩
  · have hsh := hm.thread i
    rw [hi] at hsh
    rw [← hm.held]
    generalize ht : w.thread i = t at hsh
    cases hsh
    exact ho.idle i ht
  · have hsh := hm.thread i
    rw [hi] at hsh
    rw [← hm.held]
    generalize ht : w.thread i = t at hsh
    cases hsh with
    | done => exact ho.idle i ht
    | returned => exact ho.returned i _ _ ht
  · have hsh := hm.thread i
    rw [hi] at hsh
    rw [← hm.held]
    generalize ht : w.thread i = t at hsh
    cases hsh with
    | alone => exact ho.idle i ht
    | running => exact (ho.running i _ _ ht).bind fun a => rfl
  · rw [← hm.held] at hi ⊢
    exact ho.alone i j l hne hi

/-- **Threads whose programs make calls run as the threads of these calls do.** -/
theorem Threads.mirrored {G' : Threads κ Op A γ' α' σ → ℕ × Deed κ Op A γ' α' → Prop}
    {G : Threads κ Op A γ α σ → ℕ × Deed κ Op A γ α → Prop}
    (hp : ∀ w' i c', G' w' (i, .start c') → Makes program F (Q c') (program' c'))
    (hG : ∀ w i d, (∀ c, d = .start c → F c) → G w (i, d))
    (hr : ((Threads.system init program' R).guard G').Run h' w') :
    ∃ h w, ((Threads.system init program R).guard G).Run h w ∧ Mirrors Q h' w' h w := by
  refine Lts.Run.inv (L := (Threads.system init program' R).guard G')
    (P := fun h' w' => ∃ h w, ((Threads.system init program R).guard G).Run h w ∧ Mirrors Q h' w' h w) ?_ ?_ hr
  · rintro w' ⟨hinit, h0⟩
    refine ⟨[], ⟨w'.mem, w'.held, fun _ => .idle⟩, .nil ⟨hinit, fun i => ⟨(h0 i).1, rfl⟩⟩, rfl, rfl, fun i => ?_, ?_⟩
    · rw [(h0 i).2]
      exact .idle
    · rintro i j - ⟨c, hc⟩
      cases hc
  · rintro h' w' ⟨i, d'⟩ w₁' hr' ⟨h, w, hr, hm⟩ ⟨hg, ht⟩
    have hstart (c' : γ') (hd : d' = .start c') : Makes program F (Q c') (program' c') := hp w' i c' (hd ▸ hg)
    rcases hm.step (Threads.told hr') (Threads.told hr) ht hstart with hm' | ⟨d, w₁, hF, ht', hm'⟩
    · exact ⟨h, w, hr, hm'⟩
    · exact ⟨_, _, hr.cons ⟨hG w i d hF, ht'⟩, hm'⟩

end Systems

end HyScanCache.Lib
