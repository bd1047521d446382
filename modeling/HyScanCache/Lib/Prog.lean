import Mathlib.Tactic.Common

/-!
# Programs over operations

`Prog Op Ans α` is a program that performs operations `o : Op`, goes on with the answer it gets in `Ans o`, and
returns an `α`.  What an operation does is left open, so that one program can be run against different worlds:
`Prog.run` runs it alone, against a handler; a system of several programs takes them one operation at a time.

Where an operation may be answered in several ways, a relation `R o s a s'` says in which.  `Prog.Runs R` are the
runs of a program, and `Prog.Always R Q` says that they all end in `Q` (`Runs.post`).
`Prog.Safely R I Q` says besides that every operation is performed in a state that suits it.

* `Uses.bind`, `Always.bind`, `Safely.bind`: the rules for one program after another;
* `Uses.eval_ok`, `Uses.eval_congr`, `Meets.eval`: what the operations of a program tell of its run, where they change
  nothing;
* `Always.of_run`: operations answered as a handler answers them;
* `Runs.of_run`, `Runs.run`: a run against a handler is one of the runs, and the other way round;
* `Through.runs`, `Through.safely`: part of a run, and what is left of the program.
-/

namespace HyScanCache.Lib

/-- A program over the operations `Op`. -/
inductive Prog (Op : Type) (Ans : Op → Type) (α : Type) where
  | ret (a : α)
  | op (o : Op) (k : Ans o → Prog Op Ans α)

namespace Prog

variable {Op : Type} {Ans : Op → Type} {α γ σ ε : Type}

/-- One program after another. -/
def bind (p : Prog Op Ans α) (f : α → Prog Op Ans γ) : Prog Op Ans γ :=
  match p with
  | ret a => f a
  | op o k => op o fun a => (k a).bind f

instance : Monad (Prog Op Ans) where
  pure := ret
  bind := bind

@[simp] theorem pure_eq (a : α) : (pure a : Prog Op Ans α) = ret a := rfl

@[simp] theorem ret_bind (a : α) (f : α → Prog Op Ans γ) : ((ret a : Prog Op Ans α) >>= f) = f a := rfl

@[simp] theorem op_bind (o : Op) (k : Ans o → Prog Op Ans α) (f : α → Prog Op Ans γ) :
    (op o k >>= f) = op o fun a => k a >>= f := rfl

@[simp] theorem bind_ret (a : α) (f : α → Prog Op Ans γ) : (ret a : Prog Op Ans α).bind f = f a := rfl

/-- Perform one operation. -/
def perform (o : Op) : Prog Op Ans (Ans o) := op o ret

@[simp] theorem perform_bind (o : Op) (f : Ans o → Prog Op Ans γ) : (perform o >>= f) = op o f := rfl

theorem bind_assoc {δ : Type} (p : Prog Op Ans α) (f : α → Prog Op Ans γ) (g : γ → Prog Op Ans δ) :
    (p.bind f).bind g = p.bind fun a => (f a).bind g := by
  induction p with
  | ret a => rfl
  | op o k ih => exact congrArg (op o) (funext ih)

/-- Run a program against a handler of its operations. -/
def run (handle : (o : Op) → σ → Except ε (Ans o × σ)) : Prog Op Ans α → σ → Except ε (α × σ)
  | ret a, s => .ok (a, s)
  | op o k, s => do
    let (a, s) ← handle o s
    (k a).run handle s

variable {handle : (o : Op) → σ → Except ε (Ans o × σ)} {s s' : σ}

theorem run_op {o : Op} {k : Ans o → Prog Op Ans α} {a : Ans o} (h : handle o s = .ok (a, s')) :
    (op o k).run handle s = (k a).run handle s' := by
  rw [run, h]
  rfl

theorem run_bind (p : Prog Op Ans α) (f : α → Prog Op Ans γ) :
    (p >>= f).run handle s = p.run handle s >>= fun r => (f r.1).run handle r.2 := by
  induction p generalizing s with
  | ret a => rfl
  | op o k ih =>
    rw [op_bind, run, run]
    cases handle o s with
    | error e => rfl
    | ok r => exact ih r.1

/-- The program performs operations of `P` only. -/
def Uses (P : Op → Prop) : Prog Op Ans α → Prop
  | .ret _ => True
  | .op o k => P o ∧ ∀ b, (k b).Uses P

@[simp] theorem uses_ret {P : Op → Prop} (a : α) : (ret a : Prog Op Ans α).Uses P := trivial

@[simp] theorem uses_op {P : Op → Prop} (o : Op) (k : Ans o → Prog Op Ans α) :
    (op o k).Uses P ↔ P o ∧ ∀ b, (k b).Uses P := Iff.rfl

theorem uses_any (p : Prog Op Ans α) : p.Uses fun _ => True := by
  induction p with
  | ret a => trivial
  | op o k ih => exact ⟨trivial, ih⟩

theorem Uses.mono {P P' : Op → Prop} {p : Prog Op Ans α} (hp : p.Uses P) (hP : ∀ o, P o → P' o) : p.Uses P' := by
  induction p with
  | ret a => trivial
  | op o k ih => exact ⟨hP o hp.1, fun b => ih b (hp.2 b)⟩

theorem Uses.bind {P : Op → Prop} {p : Prog Op Ans α} {f : α → Prog Op Ans γ} (hp : p.Uses P)
    (hf : ∀ a, (f a).Uses P) : (p >>= f).Uses P := by
  induction p with
  | ret a => exact hf a
  | op o k ih => exact ⟨hp.1, fun b => ih b (hp.2 b)⟩

/-- Whatever it is answered, the program performs an operation of `P`. -/
def Meets (P : Op → Prop) : Prog Op Ans α → Prop
  | .ret _ => False
  | .op o k => P o ∨ ∀ b, (k b).Meets P

@[simp] theorem meets_ret {P : Op → Prop} (a : α) : ¬ (ret a : Prog Op Ans α).Meets P := id

@[simp] theorem meets_op {P : Op → Prop} (o : Op) (k : Ans o → Prog Op Ans α) :
    (op o k).Meets P ↔ P o ∨ ∀ b, (k b).Meets P := Iff.rfl

theorem Meets.bind_left {P : Op → Prop} {p : Prog Op Ans α} (hp : p.Meets P) (f : α → Prog Op Ans γ) :
    (p >>= f).Meets P := by
  induction p with
  | ret a => exact hp.elim
  | op o k ih => exact hp.imp_right fun hk b => ih b (hk b)

theorem Meets.bind_right {P : Op → Prop} (p : Prog Op Ans α) {f : α → Prog Op Ans γ} (hf : ∀ a, (f a).Meets P) :
    (p >>= f).Meets P := by
  induction p with
  | ret a => exact hf a
  | op o k ih => exact .inr fun b => ih b

/-! ### Operations that only answer -/

/-- Run a program whose operations change nothing. -/
def eval (handle : (o : Op) → Except ε (Ans o)) : Prog Op Ans α → Except ε α
  | ret a => .ok a
  | op o k => do
    let a ← handle o
    (k a).eval handle

section Eval

variable {handle handle' : (o : Op) → Except ε (Ans o)} {P : Op → Prop} {p : Prog Op Ans α}

theorem Uses.eval_ok (hp : p.Uses P) (hP : ∀ o, P o → ∃ a, handle o = .ok a) : ∃ a, p.eval handle = .ok a := by
  induction p with
  | ret a => exact ⟨a, rfl⟩
  | op o k ih =>
    obtain ⟨b, hb⟩ := hP o hp.1
    obtain ⟨a, ha⟩ := ih b (hp.2 b)
    exact ⟨a, by rw [eval, hb]; exact ha⟩

theorem Uses.eval_ok_or {e : ε} (hp : p.Uses P) (hP : ∀ o, P o → (∃ a, handle o = .ok a) ∨ handle o = .error e) :
    (∃ a, p.eval handle = .ok a) ∨ p.eval handle = .error e := by
  induction p with
  | ret a => exact .inl ⟨a, rfl⟩
  | op o k ih =>
    rw [eval]
    rcases hP o hp.1 with ⟨b, hb⟩ | he
    · rw [hb]
      exact ih b (hp.2 b)
    · rw [he]
      exact .inr rfl

theorem Uses.eval_congr (hp : p.Uses P) (hP : ∀ o, P o → handle o = handle' o) : p.eval handle = p.eval handle' := by
  induction p with
  | ret a => rfl
  | op o k ih =>
    rw [eval, eval, hP o hp.1]
    cases handle' o with
    | error e => rfl
    | ok b => exact ih b (hp.2 b)

theorem Meets.eval {a : α} (hp : p.Meets P) (h : p.eval handle = .ok a) : ∃ o, P o ∧ ∃ b, handle o = .ok b := by
  induction p with
  | ret a => exact hp.elim
  | op o k ih =>
    rw [Prog.eval] at h
    cases ho : handle o with
    | error e =>
      rw [ho] at h
      cases h
    | ok b =>
      rw [ho] at h
      rcases hp with hp | hk
      · exact ⟨o, hp, b, ho⟩
      · exact ih b (hk b) h

end Eval

/-! ### Answers that are not determined -/

/-- The program, with its operations answered as `R` allows, leads from a state to a result and a state. -/
inductive Runs (R : (o : Op) → σ → Ans o → σ → Prop) : Prog Op Ans α → σ → α → σ → Prop
  | ret {a : α} {s : σ} : Runs R (.ret a) s a s
  | op {o : Op} {k : Ans o → Prog Op Ans α} {s s₁ s' : σ} {b : Ans o} {a : α} (ho : R o s b s₁)
      (hk : Runs R (k b) s₁ a s') : Runs R (.op o k) s a s'

/-- Part of a run: what the program has come to, and the state. -/
inductive Through (R : (o : Op) → σ → Ans o → σ → Prop) (p : Prog Op Ans α) (s : σ) : Prog Op Ans α → σ → Prop
  | refl : Through R p s p s
  | step {o : Op} {k : Ans o → Prog Op Ans α} {s₁ s₂ : σ} {b : Ans o} (h : Through R p s (.op o k) s₁)
      (ho : R o s₁ b s₂) : Through R p s (k b) s₂

/-- Every run of the program from the state ends in `Q`. -/
def Always (R : (o : Op) → σ → Ans o → σ → Prop) (Q : α → σ → Prop) : Prog Op Ans α → σ → Prop
  | .ret a, s => Q a s
  | .op o k, s => ∀ b s', R o s b s' → (k b).Always R Q s'

/-- Every run of the program from the state ends in `Q`, and performs an operation in states of `I` only. -/
def Safely (R : (o : Op) → σ → Ans o → σ → Prop) (I : Op → σ → Prop) (Q : α → σ → Prop) : Prog Op Ans α → σ → Prop
  | .ret a, s => Q a s
  | .op o k, s => I o s ∧ ∀ b s', R o s b s' → (k b).Safely R I Q s'

section Answers

variable {R : (o : Op) → σ → Ans o → σ → Prop} {Q Q' : α → σ → Prop} {p : Prog Op Ans α} {a : α} {I : Op → σ → Prop}

/-- **The rule for runs.** -/
theorem Runs.post (h : p.Runs R s a s') (hp : p.Always R Q s) : Q a s' := by
  induction h with
  | ret => exact hp
  | op ho _ ih => exact ih (hp _ _ ho)

theorem Through.runs {q : Prog Op Ans α} {s₁ : σ} (h : p.Through R s q s₁) (hq : q.Runs R s₁ a s') :
    p.Runs R s a s' := by
  induction h with
  | refl => exact hq
  | step _ ho ih => exact ih (.op ho hq)

theorem Through.safely {q : Prog Op Ans α} {s₁ : σ} (h : p.Through R s q s₁) (hp : p.Safely R I Q s) :
    q.Safely R I Q s₁ := by
  induction h with
  | refl => exact hp
  | step _ ho ih => exact ih.2 _ _ ho

theorem Runs.bind {f : α → Prog Op Ans γ} {c : γ} {s₁ : σ} (h : p.Runs R s a s₁) (hf : (f a).Runs R s₁ c s') :
    (p >>= f).Runs R s c s' := by
  induction h with
  | ret => exact hf
  | op ho _ ih => exact .op ho (ih hf)

/-- A run of one program after another. -/
theorem Runs.of_bind {f : α → Prog Op Ans γ} {c : γ} (h : (p >>= f).Runs R s c s') :
    ∃ b s₁, p.Runs R s b s₁ ∧ (f b).Runs R s₁ c s' := by
  induction p generalizing s with
  | ret b => exact ⟨b, s, .ret, h⟩
  | op o k ih =>
    cases h with
    | op ho hk =>
      obtain ⟨b, s₁, hb, hf⟩ := ih _ hk
      exact ⟨b, s₁, .op ho hb, hf⟩

theorem Always.mono (hp : p.Always R Q s) (hQ : ∀ a s, Q a s → Q' a s) : p.Always R Q' s := by
  induction p generalizing s with
  | ret a => exact hQ a s hp
  | op o k ih => exact fun b s' ho => ih b (hp b s' ho)

/-- **The rule for one program after another.** -/
theorem Always.bind {f : α → Prog Op Ans γ} {Q : γ → σ → Prop}
    (hp : p.Always R (fun a s => (f a).Always R Q s) s) : (p >>= f).Always R Q s := by
  induction p generalizing s with
  | ret a => exact hp
  | op o k ih => exact fun b s' ho => ih b (hp b s' ho)

theorem Safely.mono (hp : p.Safely R I Q s) (hQ : ∀ a s, Q a s → Q' a s) : p.Safely R I Q' s := by
  induction p generalizing s with
  | ret a => exact hQ a s hp
  | op o k ih => exact ⟨hp.1, fun b s' ho => ih b (hp.2 b s' ho)⟩

theorem Safely.always (hp : p.Safely R I Q s) : p.Always R Q s := by
  induction p generalizing s with
  | ret a => exact hp
  | op o k ih => exact fun b s' ho => ih b (hp.2 b s' ho)

theorem Safely.bind {f : α → Prog Op Ans γ} {Q : γ → σ → Prop}
    (hp : p.Safely R I (fun a s => (f a).Safely R I Q s) s) : (p >>= f).Safely R I Q s := by
  induction p generalizing s with
  | ret a => exact hp
  | op o k ih => exact ⟨hp.1, fun b s' ho => ih b (hp.2 b s' ho)⟩

/-- **A program whose operations are answered as a handler answers them** on a part `f` of the state, which leave
another part `g` as it is, ends as it ends against the handler. -/
theorem Always.of_run {τ ρ : Type} {P : Op → Prop} {T : (o : Op) → τ → Ans o → τ → Prop} {f : τ → σ} {g : τ → ρ}
    (hT : ∀ o, P o → ∀ t b t', T o t b t' → handle o (f t) = .ok (b, f t') ∧ g t' = g t) (hp : p.Uses P) {t : τ}
    (hrun : p.run handle (f t) = .ok (a, s')) : p.Always T (fun b t' => b = a ∧ f t' = s' ∧ g t' = g t) t := by
  induction p generalizing t with
  | ret b =>
    obtain ⟨rfl, rfl⟩ := Prod.mk.inj (Except.ok.inj hrun)
    exact ⟨rfl, rfl, rfl⟩
  | op o k ih =>
    intro b t₁ ho
    obtain ⟨he, hg⟩ := hT o hp.1 t b t₁ ho
    rw [run_op he] at hrun
    exact (ih b (hp.2 b) hrun).mono fun a' t' ⟨ha, hf, hg'⟩ => ⟨ha, hf, hg'.trans hg⟩

/-- A program whose operations are answered as a handler answers them asks for nothing the handler fails in. -/
theorem Safely.of_run {P : Op → Prop} (hR : ∀ o, P o → ∀ s b s', R o s b s' → handle o s = .ok (b, s'))
    (hp : p.Uses P) {s₁ : σ} (hrun : p.run handle s = .ok (a, s₁)) :
    p.Safely R (fun o s => ∃ r, handle o s = .ok r) (fun b s' => b = a ∧ s' = s₁) s := by
  induction p generalizing s with
  | ret b =>
    obtain ⟨rfl, rfl⟩ := Prod.mk.inj (Except.ok.inj hrun)
    exact ⟨rfl, rfl⟩
  | op o k ih =>
    cases ho : handle o s with
    | error e =>
      rw [run, ho] at hrun
      cases hrun
    | ok r =>
      refine ⟨⟨r, ho⟩, fun b s' hb => ?_⟩
      obtain rfl : r = (b, s') := Except.ok.inj (ho.symm.trans (hR o hp.1 s b s' hb))
      rw [run_op ho] at hrun
      exact ih b (hp.2 b) hrun

/-- **A run against a handler is one of the runs**, if `R` allows the answers it gives to the operations of the
program in the states related to those of the handler. -/
theorem Runs.of_run {τ : Type} {P : Op → Prop} {T : (o : Op) → τ → Ans o → τ → Prop} {S : σ → τ → Prop}
    (hT : ∀ o, P o → ∀ s b s' t, S s t → handle o s = .ok (b, s') → ∃ t', T o t b t' ∧ S s' t') (hp : p.Uses P)
    {t : τ} (hst : S s t) (hrun : p.run handle s = .ok (a, s')) : ∃ t', p.Runs T t a t' ∧ S s' t' := by
  induction p generalizing s t with
  | ret b =>
    obtain ⟨rfl, rfl⟩ := Prod.mk.inj (Except.ok.inj hrun)
    exact ⟨t, .ret, hst⟩
  | op o k ih =>
    cases ho : handle o s with
    | error e =>
      rw [run, ho] at hrun
      cases hrun
    | ok r =>
      obtain ⟨b, s₁⟩ := r
      rw [run_op ho] at hrun
      obtain ⟨t₁, hb, hst₁⟩ := hT o hp.1 s b s₁ t hst ho
      obtain ⟨t', hk, hst'⟩ := ih b (hp.2 b) hst₁ hrun
      exact ⟨t', .op hb hk, hst'⟩

theorem Runs.run (h : p.Runs (fun o s b s' => handle o s = .ok (b, s')) s a s') : p.run handle s = .ok (a, s') := by
  induction h with
  | ret => rfl
  | op ho _ ih => exact (run_op ho).trans ih

end Answers

end Prog

end HyScanCache.Lib
