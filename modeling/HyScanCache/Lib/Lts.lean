import Mathlib.Logic.Relation
import Mathlib.Tactic.Common

/-!
# Labelled transition systems

A system is a set of initial states and a relation `tr s e s'`.  A *history* is the list of the labels of a
run, **the newest first**, so that "the last event that …" is a recursion on the history and a run is
extended at the head.

* `Run.inv`: what holds of the empty history and is kept by every step holds of every run;
* `Run.split`: a run passes through the state in which any of its labels happened;
* `Inevitable.of_measure`: what must come when every step makes a measure smaller;
* `Simulation.run`: a simulation carries runs over, with the same history.
-/

namespace HyScanCache.Lib

/-- A labelled transition system. -/
structure Lts (σ ℓ : Type*) where
  init : σ → Prop
  tr : σ → ℓ → σ → Prop

namespace Lts

variable {σ τ ℓ : Type*} {L : Lts σ ℓ} {M : Lts τ ℓ} {s s₁ s₂ : σ} {h h' : List ℓ} {e : ℓ}

/-- The labels of `h`, the newest first, lead from `s` to the last argument. -/
inductive Steps (L : Lts σ ℓ) (s : σ) : List ℓ → σ → Prop
  | nil : Steps L s [] s
  | cons {h : List ℓ} {s₁ s₂ : σ} {e : ℓ} : Steps L s h s₁ → L.tr s₁ e s₂ → Steps L s (e :: h) s₂

/-- `h` is the history of a run from an initial state to `s`. -/
def Run (L : Lts σ ℓ) (h : List ℓ) (s : σ) : Prop := ∃ s₀, L.init s₀ ∧ L.Steps s₀ h s

/-- Some run ends in `s`. -/
def Reachable (L : Lts σ ℓ) (s : σ) : Prop := ∃ h, L.Run h s

/-- The system with the steps of `L` that meet `G`, a condition on the state before the step and its label. -/
def guard (L : Lts σ ℓ) (G : σ → ℓ → Prop) : Lts σ ℓ where
  init := L.init
  tr s e s' := G s e ∧ L.tr s e s'

/-- The system whose states remember the history. -/
def recorded (L : Lts σ ℓ) : Lts (List ℓ × σ) ℓ where
  init s := s.1 = [] ∧ L.init s.2
  tr s e s' := s'.1 = e :: s.1 ∧ L.tr s.2 e s'.2

/-! ### Runs -/

theorem Steps.trans (h₁ : L.Steps s h s₁) (h₂ : L.Steps s₁ h' s₂) : L.Steps s (h' ++ h) s₂ := by
  induction h₂ with
  | nil => exact h₁
  | cons _ ht ih => exact Steps.cons ih ht

theorem Run.nil (hs : L.init s) : L.Run [] s := ⟨s, hs, Steps.nil⟩

theorem Run.cons (hr : L.Run h s) (ht : L.tr s e s₁) : L.Run (e :: h) s₁ := by
  obtain ⟨s₀, h0, hs⟩ := hr
  exact ⟨s₀, h0, Steps.cons hs ht⟩

theorem Run.trans (hr : L.Run h s) (hs : L.Steps s h' s₁) : L.Run (h' ++ h) s₁ := by
  obtain ⟨s₀, h0, h1⟩ := hr
  exact ⟨s₀, h0, h1.trans hs⟩

/-- **Invariant rule for runs.**  The invariant may speak of the history. -/
theorem Run.inv {P : List ℓ → σ → Prop} (h0 : ∀ s, L.init s → P [] s)
    (hstep : ∀ h s e s', L.Run h s → P h s → L.tr s e s' → P (e :: h) s') (hr : L.Run h s) : P h s := by
  obtain ⟨s₀, hi, hs⟩ := hr
  induction hs with
  | nil => exact h0 s₀ hi
  | cons hs ht ih => exact hstep _ _ _ _ ⟨s₀, hi, hs⟩ ih ht

/-- **Invariant rule for reachable states.** -/
theorem Reachable.inv {P : σ → Prop} (h0 : ∀ s, L.init s → P s)
    (hstep : ∀ s e s', L.Reachable s → P s → L.tr s e s' → P s') (hr : L.Reachable s) : P s := by
  obtain ⟨h, hr⟩ := hr
  exact Run.inv (P := fun _ s => P s) h0 (fun h s e s' hr => hstep s e s' ⟨h, hr⟩) hr

theorem Steps.inv {P : σ → Prop} (hs : L.Steps s h s₁) (h0 : P s)
    (hstep : ∀ h s₁ e s₂, L.Steps s h s₁ → P s₁ → L.tr s₁ e s₂ → P s₂) : P s₁ := by
  induction hs with
  | nil => exact h0
  | cons hs ht ih => exact hstep _ _ _ _ hs ih ht

theorem Reachable.step (hr : L.Reachable s) (ht : L.tr s e s₁) : L.Reachable s₁ := by
  obtain ⟨h, hr⟩ := hr
  exact ⟨e :: h, hr.cons ht⟩

theorem Steps.split (hs : L.Steps s (h' ++ e :: h) s₂) :
    ∃ s₁ s₁', L.Steps s h s₁ ∧ L.tr s₁ e s₁' ∧ L.Steps s₁' h' s₂ := by
  induction h' generalizing s₂ with
  | nil =>
    cases hs with
    | cons hs ht => exact ⟨_, _, hs, ht, Steps.nil⟩
  | cons e' h' ih =>
    cases hs with
    | cons hs ht =>
      obtain ⟨s₁, s₁', h1, h2, h3⟩ := ih hs
      exact ⟨s₁, s₁', h1, h2, Steps.cons h3 ht⟩

theorem Run.split (hr : L.Run (h' ++ e :: h) s) :
    ∃ s₁ s₁', L.Run h s₁ ∧ L.tr s₁ e s₁' ∧ L.Steps s₁' h' s := by
  obtain ⟨s₀, h0, hs⟩ := hr
  obtain ⟨s₁, s₁', h1, h2, h3⟩ := hs.split
  exact ⟨s₁, s₁', ⟨s₀, h0, h1⟩, h2, h3⟩

theorem Run.of_guard {G : σ → ℓ → Prop} (hr : (L.guard G).Run h s) : L.Run h s := by
  refine Run.inv (L := L.guard G) (P := fun h s => L.Run h s) (fun s h0 => Run.nil h0) ?_ hr
  rintro h s e s' - hr ⟨-, ht⟩
  exact hr.cons ht

theorem Run.guard_mono {G G' : σ → ℓ → Prop} (hr : (L.guard G).Run h s) (hG : ∀ s e, G s e → G' s e) :
    (L.guard G').Run h s := by
  refine Run.inv (L := L.guard G) (P := fun h s => (L.guard G').Run h s) (fun s h0 => Run.nil h0) ?_ hr
  rintro h s e s' - hr ⟨hg, ht⟩
  exact hr.cons ⟨hG s e hg, ht⟩

theorem Run.guard_of_mem {G : σ → ℓ → Prop} (hr : L.Run h s) (hG : ∀ e ∈ h, ∀ s, G s e) : (L.guard G).Run h s := by
  refine Run.inv (L := L) (P := fun h s => (∀ e ∈ h, ∀ s, G s e) → (L.guard G).Run h s) (fun s h0 _ => Run.nil h0) ?_
    hr hG
  intro h s e s' _ ih ht hG
  exact (ih fun e' he' => hG e' (List.mem_cons_of_mem _ he')).cons ⟨hG e List.mem_cons_self s, ht⟩

theorem Steps.of_guard {G : σ → ℓ → Prop} (hs : (L.guard G).Steps s h s₁) : L.Steps s h s₁ := by
  induction hs with
  | nil => exact Steps.nil
  | cons _ ht ih => exact Steps.cons ih ht.2

theorem Reachable.of_recorded {x : List ℓ × σ} (hr : L.recorded.Reachable x) : L.Run x.1 x.2 := by
  refine Reachable.inv (P := fun x => L.Run x.1 x.2) ?_ ?_ hr
  · rintro ⟨h, s⟩ ⟨hh, h0⟩
    obtain rfl : h = [] := hh
    exact Run.nil h0
  · rintro ⟨h, s⟩ e ⟨h', s'⟩ - hr ⟨hh, ht⟩
    obtain rfl : h' = e :: h := hh
    exact hr.cons ht

theorem Run.recorded (hr : L.Run h s) : L.recorded.Reachable (h, s) := by
  refine Run.inv (P := fun h s => L.recorded.Reachable (h, s)) (fun s h0 => ⟨[], Run.nil ⟨rfl, h0⟩⟩) ?_ hr
  exact fun h e s e' s' hr ht => hr.step ⟨rfl, ht⟩

/-! ### What must come -/

/-- **Whatever steps are taken, they come to a state of `P`**, and until then there is a step to take. -/
inductive Inevitable (L : Lts σ ℓ) (P : σ → Prop) : σ → Prop
  | here {s : σ} (h : P s) : Inevitable L P s
  | later {s : σ} (hgo : ∃ e s', L.tr s e s') (hall : ∀ e s', L.tr s e s' → Inevitable L P s') : Inevitable L P s

/-- **A measure that gets smaller with every step.** -/
theorem Inevitable.of_measure {α : Type*} {r : α → α → Prop} (hwf : WellFounded r) {P I : σ → Prop} (f : σ → α)
    (hstep : ∀ s e s', I s → L.tr s e s' → I s' ∧ r (f s') (f s)) (hgo : ∀ s, I s → P s ∨ ∃ e s', L.tr s e s')
    (hs : I s) : L.Inevitable P s := by
  induction hx : f s using hwf.induction generalizing s with
  | _ x ih =>
    subst hx
    rcases hgo s hs with hP | hnext
    · exact .here hP
    · refine .later hnext fun e s' ht => ?_
      obtain ⟨hs', hlt⟩ := hstep s e s' hs ht
      exact ih _ hlt hs' rfl

/-! ### Simulation -/

/-- `R` relates every initial state of `L` to one of `M`, and `M` answers every step of `L` with a step of
the same label. -/
structure Simulation (L : Lts σ ℓ) (M : Lts τ ℓ) (R : σ → τ → Prop) : Prop where
  init : ∀ s, L.init s → ∃ t, M.init t ∧ R s t
  step : ∀ s t e s', R s t → L.tr s e s' → ∃ t', M.tr t e t' ∧ R s' t'

theorem Simulation.steps {R : σ → τ → Prop} (hR : Simulation L M R) {t : τ} (hst : R s t)
    (hs : L.Steps s h s₁) : ∃ t₁, M.Steps t h t₁ ∧ R s₁ t₁ := by
  induction hs with
  | nil => exact ⟨t, Steps.nil, hst⟩
  | cons _ ht ih =>
    obtain ⟨t₁, h1, h2⟩ := ih
    obtain ⟨t₂, h3, h4⟩ := hR.step _ _ _ _ h2 ht
    exact ⟨t₂, Steps.cons h1 h3, h4⟩

/-- **A simulation carries runs over.** -/
theorem Simulation.run {R : σ → τ → Prop} (hR : Simulation L M R) (hr : L.Run h s) :
    ∃ t, M.Run h t ∧ R s t := by
  obtain ⟨s₀, h0, hs⟩ := hr
  obtain ⟨t₀, ht0, hR0⟩ := hR.init s₀ h0
  obtain ⟨t, h1, h2⟩ := hR.steps hR0 hs
  exact ⟨t, ⟨t₀, ht0, h1⟩, h2⟩

end Lts

end HyScanCache.Lib
