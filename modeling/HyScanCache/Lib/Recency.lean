import Mathlib.Data.List.Nodup
import Mathlib.Algebra.Order.BigOperators.Group.List
import Mathlib.Algebra.Order.Group.Nat
import Mathlib.Algebra.Ring.Nat
import Mathlib.Tactic.Common

/-!
# Recency lists

Lists of keyed items in which no key occurs twice, the most recently used item first.

* `find`, `erase`: look an item up by its key, take it out;
* `promote`: put an item on top, in place of the older item of its key if there is one;
* `keepFit`: the longest prefix whose total cost is within a budget.  Dropping items from the end until the
  rest fits computes it (`keepFit_concat`, `keepFit_eq_self`); `forall_mem_keepFit_iff` says when it gives up
  no more than one key.
-/

namespace HyScanCache.Lib.Recency

variable {α κ : Type*}

/-- The total cost of a list. -/
def total (cost : α → ℕ) (l : List α) : ℕ := (l.map cost).sum

section Total

variable (cost : α → ℕ)

@[simp] theorem total_nil : total cost [] = 0 := rfl

@[simp] theorem total_cons (a : α) (l : List α) : total cost (a :: l) = cost a + total cost l := by
  simp [total]

@[simp] theorem total_append (l l' : List α) : total cost (l ++ l') = total cost l + total cost l' := by
  simp [total]

theorem total_perm {l l' : List α} (h : l.Perm l') : total cost l = total cost l' :=
  (h.map cost).sum_eq

theorem cost_le_total {a : α} {l : List α} (ha : a ∈ l) : cost a ≤ total cost l :=
  List.le_sum_of_mem (List.mem_map_of_mem ha)

theorem total_map {α' : Type*} (f : α' → α) (l : List α') : total cost (l.map f) = total (cost ∘ f) l := by
  rw [total, total, List.map_map]

theorem total_le_of_sublist {l l' : List α} (h : l.Sublist l') : total cost l ≤ total cost l' :=
  (h.map cost).sum_le_sum fun _ _ => Nat.zero_le _

theorem total_le_total {cost' : α → ℕ} {l : List α} (h : ∀ a ∈ l, cost a ≤ cost' a) :
    total cost l ≤ total cost' l := List.sum_le_sum h

end Total

/-! ### Looking up and taking out -/

section Keyed

variable [DecidableEq κ] (key : α → κ)

/-- No key occurs twice. -/
def Distinct (l : List α) : Prop := (l.map key).Nodup

/-- The item of the key `k`. -/
def find (k : κ) (l : List α) : Option α := l.find? fun a => decide (key a = k)

/-- Take the item of the key `k` out. -/
def erase (k : κ) (l : List α) : List α := l.filter fun a => decide (key a ≠ k)

/-- Put `a` on top, in place of the item of its key. -/
def promote (a : α) (l : List α) : List α := a :: erase key (key a) l

variable {key} {a b : α} {k : κ} {l xs ys : List α}

omit [DecidableEq κ] in
theorem Distinct.sublist (h : Distinct key l) (hs : xs.Sublist l) : Distinct key xs :=
  List.Nodup.sublist (hs.map key) h

omit [DecidableEq κ] in
theorem Distinct.eq (h : Distinct key l) (ha : a ∈ l) (hb : b ∈ l) (he : key a = key b) : a = b :=
  List.inj_on_of_nodup_map h ha hb he

omit [DecidableEq κ] in
theorem Distinct.key_ne (h : Distinct key (xs ++ a :: ys)) (hb : b ∈ xs ∨ b ∈ ys) : key b ≠ key a := by
  unfold Distinct at h
  rw [List.map_append, List.map_cons, List.nodup_append] at h
  obtain ⟨-, h2, h3⟩ := h
  rcases hb with hb | hb
  · exact h3 _ (List.mem_map_of_mem hb) _ (by simp)
  · exact fun e => (List.nodup_cons.1 h2).1 (e ▸ List.mem_map_of_mem hb)

theorem find_eq_some (h : Distinct key l) : find key k l = some a ↔ a ∈ l ∧ key a = k := by
  constructor
  · intro hf
    exact ⟨List.mem_of_find?_eq_some hf, by simpa using List.find?_some hf⟩
  · rintro ⟨ha, hk⟩
    obtain ⟨xs, ys, rfl⟩ := List.append_of_mem ha
    refine List.find?_eq_some_iff_append.2 ⟨by simpa using hk, xs, ys, rfl, fun b hb => ?_⟩
    have := h.key_ne (.inl hb)
    simpa [← hk] using this

theorem find_eq_none : find key k l = none ↔ ∀ a ∈ l, key a ≠ k := by
  simp [find]

theorem mem_of_find (h : find key k l = some a) : a ∈ l := List.mem_of_find?_eq_some h

theorem key_of_find (h : find key k l = some a) : key a = k := by simpa using List.find?_some h

theorem mem_erase : a ∈ erase key k l ↔ a ∈ l ∧ key a ≠ k := by simp [erase]

theorem erase_sublist : (erase key k l).Sublist l := List.filter_sublist

theorem erase_of_find_none (h : find key k l = none) : erase key k l = l :=
  List.filter_eq_self.2 fun a ha => by simpa using find_eq_none.1 h a ha

theorem erase_append_cons (h : Distinct key (xs ++ a :: ys)) :
    erase key (key a) (xs ++ a :: ys) = xs ++ ys := by
  have hx : erase key (key a) xs = xs :=
    List.filter_eq_self.2 fun b hb => by simpa using h.key_ne (.inl hb)
  have hy : erase key (key a) ys = ys :=
    List.filter_eq_self.2 fun b hb => by simpa using h.key_ne (.inr hb)
  have e : erase key (key a) (xs ++ a :: ys) = erase key (key a) xs ++ erase key (key a) ys := by
    simp [erase]
  rw [e, hx, hy]

theorem find_tail_eq_none (h : Distinct key (a :: l)) : find key (key a) l = none :=
  find_eq_none.2 fun _ hb => Distinct.key_ne (show Distinct key ([] ++ a :: l) from h) (.inr hb)

theorem erase_cons_self (h : Distinct key (a :: l)) : erase key (key a) (a :: l) = l :=
  erase_append_cons (show Distinct key ([] ++ a :: l) from h)

omit [DecidableEq κ] in
theorem Distinct.perm (h : Distinct key l) (hp : l.Perm xs) : Distinct key xs :=
  (hp.map key).nodup_iff.1 h

theorem find_perm (h : Distinct key l) (hp : l.Perm xs) : find key k xs = find key k l := by
  cases hf : find key k l with
  | none => exact find_eq_none.2 fun a ha => find_eq_none.1 hf a (hp.mem_iff.2 ha)
  | some a =>
    obtain ⟨ha, hk⟩ := (find_eq_some h).1 hf
    exact (find_eq_some (h.perm hp)).2 ⟨hp.mem_iff.1 ha, hk⟩

theorem Distinct.erase (h : Distinct key l) : Distinct key (erase key k l) := h.sublist erase_sublist

theorem Distinct.promote (h : Distinct key l) : Distinct key (promote key a l) := by
  refine List.nodup_cons.2 ⟨?_, h.erase⟩
  intro hm
  obtain ⟨b, hb, he⟩ := List.mem_map.1 hm
  exact (mem_erase.1 hb).2 he

theorem mem_promote : b ∈ promote key a l ↔ b = a ∨ b ∈ l ∧ key b ≠ key a := by
  rw [promote, List.mem_cons, mem_erase]

theorem total_erase (cost : α → ℕ) (h : Distinct key l) (ha : a ∈ l) :
    total cost l = total cost (erase key (key a) l) + cost a := by
  obtain ⟨xs, ys, rfl⟩ := List.append_of_mem ha
  rw [erase_append_cons h]
  simp only [total_append, total_cons]
  omega

/-! Lists of items that are seen through `f`. -/

section Map

variable {α' : Type*} {f : α' → α} {l' : List α'}

theorem find_map (k : κ) : find key k (l'.map f) = (find (key ∘ f) k l').map f := by
  rw [find, List.find?_map]
  rfl

theorem erase_map (k : κ) : erase key k (l'.map f) = (erase (key ∘ f) k l').map f := by
  rw [erase, List.filter_map]
  rfl

end Map

end Keyed

/-! ### The longest prefix that fits -/

/-- The longest prefix whose total cost is at most the budget. -/
def keepFit (cost : α → ℕ) : ℕ → List α → List α
  | _, [] => []
  | budget, a :: l => if cost a ≤ budget then a :: keepFit cost (budget - cost a) l else []

section Fit

variable {cost : α → ℕ} {budget : ℕ} {a : α} {l p : List α}

theorem keepFit_isPrefix (cost : α → ℕ) (budget : ℕ) (l : List α) : keepFit cost budget l <+: l := by
  induction l generalizing budget with
  | nil => simp [keepFit]
  | cons a l ih =>
    rw [keepFit]
    split
    · exact List.prefix_cons_inj a |>.2 (ih _)
    · exact List.nil_prefix

theorem total_keepFit_le (cost : α → ℕ) (budget : ℕ) (l : List α) :
    total cost (keepFit cost budget l) ≤ budget := by
  induction l generalizing budget with
  | nil => simp [keepFit]
  | cons a l ih =>
    rw [keepFit]
    split
    · have := ih (budget - cost a)
      rw [total_cons]
      omega
    · simp

theorem prefix_keepFit (hp : p <+: l) (h : total cost p ≤ budget) : p <+: keepFit cost budget l := by
  induction l generalizing budget p with
  | nil => simpa [keepFit] using hp
  | cons a l ih =>
    cases p with
    | nil => exact List.nil_prefix
    | cons b p =>
      obtain ⟨rfl, hp'⟩ := List.cons_prefix_cons.1 hp
      rw [total_cons] at h
      rw [keepFit, if_pos (by omega)]
      exact List.cons_prefix_cons.2 ⟨rfl, ih hp' (by omega)⟩

theorem keepFit_eq_self (h : total cost l ≤ budget) : keepFit cost budget l = l :=
  (keepFit_isPrefix cost budget l).sublist.antisymm (prefix_keepFit (List.prefix_refl l) h).sublist

theorem keepFit_map {α' : Type*} (f : α' → α) (l : List α') :
    keepFit cost budget (l.map f) = (keepFit (cost ∘ f) budget l).map f := by
  induction l generalizing budget with
  | nil => rfl
  | cons a l ih =>
    simp only [List.map_cons, keepFit, Function.comp_apply]
    split
    · rw [ih, List.map_cons]
    · rfl

/-- **A list over the budget loses its last item.** -/
theorem keepFit_concat (h : budget < total cost (l ++ [a])) :
    keepFit cost budget (l ++ [a]) = keepFit cost budget l := by
  have hp := keepFit_isPrefix cost budget (l ++ [a])
  have hle := total_keepFit_le cost budget (l ++ [a])
  rcases List.prefix_concat_iff.1 hp with he | hp'
  · rw [he] at hle
    omega
  · have h1 := prefix_keepFit hp' hle
    have h2 := prefix_keepFit ((keepFit_isPrefix cost budget l).trans (List.prefix_append l [a]))
      (total_keepFit_le cost budget l)
    exact h1.sublist.antisymm h2.sublist

/-- **Only the item of `k` is given up** by a budget that has room for the other ones, exactly if the whole list is
within the budget or the last item is that of `k`. -/
theorem forall_mem_keepFit_iff {κ : Type*} [DecidableEq κ] {key : α → κ} {k : κ} (hd : Distinct key l)
    (h : total cost (erase key k l) ≤ budget) :
    (∀ a ∈ l, key a ≠ k → a ∈ keepFit cost budget l) ↔
      total cost l ≤ budget ∨ ∃ a, l.getLast? = some a ∧ key a = k := by
  constructor
  · intro hkept
    by_contra hn
    obtain ⟨hover, hlast⟩ := not_or.1 hn
    rcases List.eq_nil_or_concat' l with rfl | ⟨xs, a, rfl⟩
    · simp at hover
    · have hne : key a ≠ k := fun e => hlast ⟨a, by simp, e⟩
      have hm := hkept a (by simp) hne
      rw [keepFit_concat (by omega)] at hm
      exact hd.key_ne (.inl ((keepFit_isPrefix cost budget xs).subset hm)) rfl
  · rintro (hle | ⟨a, hlast, rfl⟩) b hb hne
    · rw [keepFit_eq_self hle]
      exact hb
    · rcases List.eq_nil_or_concat' l with rfl | ⟨xs, a', rfl⟩
      · cases hb
      · obtain rfl : a' = a := by simpa using hlast
        rw [erase_append_cons hd, List.append_nil] at h
        have hm : b ∈ xs := by
          rcases List.mem_append.1 hb with hb | hb
          · exact hb
          · exact absurd (by rw [List.mem_singleton.1 hb]) hne
        exact (prefix_keepFit (List.prefix_append xs [a']) h).subset hm

end Fit

end HyScanCache.Lib.Recency
