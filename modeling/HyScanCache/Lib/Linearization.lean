import HyScanCache.Lib.Locking
import Mathlib.Data.List.Nodup

/-!
# Linearizations

Threads carry out one call each, and `h` is the history of what they have done.  A *linearization* of `h` lists
effects, the newest first, each of which belongs to a thread and names the call and the answer of it:

* a thread has one effect at most, of the call it has started, and the one of a thread that has returned has the
  answer it has returned;
* if a call has returned before another one was started, its effect is the older one.

`Linearization.start`, `finish`, `silent` and `effect` follow the steps of a history.
-/

namespace HyScanCache.Lib

variable {κ Op : Type} {A : Op → Type} {γ α ε : Type}

/-- The thread `i` returns before the thread `j` starts. -/
def Precedes (h : List (ℕ × Deed κ Op A γ α)) (i j : ℕ) : Prop :=
  ∃ h₂ c h₁ r, h = h₂ ++ (j, .start c) :: h₁ ∧ (i, .finish r) ∈ h₁

/-- **A linearization** of the history `h`, where an effect says what its call is and what it returns. -/
structure Linearization (call : ε → γ) (answer : ε → α) (h : List (ℕ × Deed κ Op A γ α)) (lin : List (ℕ × ε)) :
    Prop where
  once : (lin.map Prod.fst).Nodup
  started : ∀ i e, (i, e) ∈ lin → (i, .start (call e)) ∈ h
  finished : ∀ i r, (i, .finish r) ∈ h → ∃ e, (i, e) ∈ lin ∧ answer e = r
  order : ∀ i j, Precedes h i j → ∀ l₂ e l₁, lin = l₂ ++ (j, e) :: l₁ → i ∈ l₁.map Prod.fst

namespace Linearization

variable {call : ε → γ} {answer : ε → α} {h : List (ℕ × Deed κ Op A γ α)} {lin : List (ℕ × ε)}
variable {i j : ℕ} {d : Deed κ Op A γ α} {e : ε}

theorem precedes_cons (hd : ∀ c, d ≠ .start c) {i' : ℕ} (hp : Precedes ((i', d) :: h) i j) : Precedes h i j := by
  obtain ⟨h₂, c, h₁, r, he, hr⟩ := hp
  cases h₂ with
  | nil =>
    rw [List.nil_append, List.cons.injEq, Prod.mk.injEq] at he
    exact absurd he.1.2 (hd c)
  | cons x h₂ =>
    rw [List.cons_append, List.cons.injEq] at he
    exact ⟨h₂, c, h₁, r, he.2, hr⟩

theorem nil : Linearization call answer ([] : List (ℕ × Deed κ Op A γ α)) [] := by
  refine ⟨List.nodup_nil, nofun, nofun, ?_⟩
  intro i j hp l₂ e l₁ he
  cases l₂ <;> cases he

theorem unique {e' : ε} (hl : Linearization call answer h lin) (he : (i, e) ∈ lin) (he' : (i, e') ∈ lin) : e = e' :=
  congrArg Prod.snd (List.inj_on_of_nodup_map hl.once he he' rfl)

theorem start {c : γ} (hl : Linearization call answer h lin) (hj : ∀ e, (j, e) ∉ lin) :
    Linearization call answer ((j, .start c) :: h) lin := by
  refine ⟨hl.once, fun i e he => List.mem_cons_of_mem _ (hl.started i e he), fun i r hr => ?_, ?_⟩
  · rcases List.mem_cons.1 hr with hr | hr
    · cases hr
    · exact hl.finished i r hr
  · rintro i j' ⟨h₂, c', h₁, r, he, hr⟩ l₂ e l₁ rfl
    cases h₂ with
    | nil =>
      rw [List.nil_append, List.cons.injEq, Prod.mk.injEq] at he
      exact absurd (by rw [he.1.1]; simp) (hj e)
    | cons x h₂ =>
      rw [List.cons_append, List.cons.injEq] at he
      exact hl.order i j' ⟨h₂, c', h₁, r, he.2, hr⟩ l₂ e l₁ rfl

theorem finish (hl : Linearization call answer h lin) (he : (i, e) ∈ lin) :
    Linearization call answer ((i, .finish (answer e)) :: h) lin := by
  refine ⟨hl.once, fun j e' he' => List.mem_cons_of_mem _ (hl.started j e' he'), fun j r hr => ?_,
    fun i' j hp => hl.order i' j (precedes_cons (by rintro c ⟨⟩) hp)⟩
  rcases List.mem_cons.1 hr with hr | hr
  · cases hr
    exact ⟨e, he, rfl⟩
  · exact hl.finished j r hr

theorem silent (hl : Linearization call answer h lin) (hs : ∀ c, d ≠ .start c) (hf : ∀ r, d ≠ .finish r) :
    Linearization call answer ((i, d) :: h) lin := by
  refine ⟨hl.once, fun j e he => List.mem_cons_of_mem _ (hl.started j e he), fun j r hr => ?_,
    fun i' j hp => hl.order i' j (precedes_cons hs hp)⟩
  rcases List.mem_cons.1 hr with hr | hr
  · exact absurd (Prod.mk.inj hr).2.symm (hf r)
  · exact hl.finished j r hr

/-- **A call takes effect**: it comes after all the calls that have. -/
theorem effect (hl : Linearization call answer h lin) (hi : ∀ e, (i, e) ∉ lin) (hs : (i, .start (call e)) ∈ h) :
    Linearization call answer h ((i, e) :: lin) := by
  have hi' : i ∉ lin.map Prod.fst := by
    intro hm
    obtain ⟨x, hx, rfl⟩ := List.mem_map.1 hm
    exact hi x.2 hx
  refine ⟨List.nodup_cons.2 ⟨hi', hl.once⟩, fun j e' he' => ?_, fun j r hr => ?_, ?_⟩
  · rcases List.mem_cons.1 he' with he' | he'
    · obtain ⟨rfl, rfl⟩ := Prod.mk.inj he'
      exact hs
    · exact hl.started j e' he'
  · obtain ⟨e', he', hr⟩ := hl.finished j r hr
    exact ⟨e', List.mem_cons_of_mem _ he', hr⟩
  · intro i' j hp l₂ e' l₁ he
    cases l₂ with
    | nil =>
      -- the call that has returned took effect before this one
      rw [List.nil_append, List.cons.injEq] at he
      obtain ⟨h₂, c, h₁, r, hh, hr⟩ := hp
      obtain ⟨e₁, he₁, -⟩ := hl.finished i' r (by simp [hh, hr])
      rw [← he.2]
      exact List.mem_map.2 ⟨_, he₁, rfl⟩
    | cons x l₂ =>
      rw [List.cons_append, List.cons.injEq] at he
      exact hl.order i' j hp l₂ e' l₁ he.2

end Linearization

end HyScanCache.Lib
