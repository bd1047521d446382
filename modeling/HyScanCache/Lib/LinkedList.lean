import Mathlib.Data.List.Induction
import Mathlib.Data.List.Nodup
import Mathlib.Logic.Function.Basic
import Mathlib.Tactic.Common

/-!
# Intrusive doubly linked lists on a heap

A heap maps addresses to cells; a cell carries its two links (`Linked`).  `Seg h p xs n` says that the cells
at `xs` are linked to each other in this order, the first one backwards to `p` and the last one forwards to
`n`.  Lists are cut and glued with `Seg.append`; a write outside a segment does not touch it (`Seg.congr`);
a write to the outward link of an end cell changes the end (`Seg.setNext_last`, `Seg.setPrev_head`).

The two operations of such a list are `unlink` and `pushFront`, with `Seg.unlink` and `Seg.pushFront`; both
change links only (`SameBare`).
-/

namespace HyScanCache.Lib

/-- An address. -/
abbrev Addr := ℕ

/-- A pointer; `none` is the null pointer. -/
abbrev Ptr := Option Addr

/-- The live cells, by address. -/
abbrev Heap (ν : Type*) := Addr → Option ν

/-- A cell with a backward and a forward link. -/
class Linked (ν : Type*) where
  prev : ν → Ptr
  next : ν → Ptr
  setPrev : Ptr → ν → ν
  setNext : Ptr → ν → ν
  prev_setPrev : ∀ p v, prev (setPrev p v) = p
  next_setNext : ∀ p v, next (setNext p v) = p
  prev_setNext : ∀ p v, prev (setNext p v) = prev v
  next_setPrev : ∀ p v, next (setPrev p v) = next v
  setPrev_setPrev : ∀ p q v, setPrev p (setPrev q v) = setPrev p v
  setNext_setNext : ∀ p q v, setNext p (setNext q v) = setNext p v
  setPrev_setNext : ∀ p q v, setPrev p (setNext q v) = setNext q (setPrev p v)
  setPrev_prev : ∀ v, setPrev (prev v) v = v
  setNext_next : ∀ v, setNext (next v) v = v

open Linked

attribute [simp] prev_setPrev next_setNext prev_setNext next_setPrev

variable {ν : Type*}

/-! ### The heap -/

/-- Change the cell a pointer points at; nothing happens at the null pointer or at a dead address. -/
def Heap.modify (h : Heap ν) (p : Ptr) (f : ν → ν) : Heap ν :=
  match p with
  | none => h
  | some a => Function.update h a ((h a).map f)

@[simp] theorem Heap.modify_none (h : Heap ν) (f : ν → ν) : h.modify none f = h := rfl

@[simp] theorem Heap.modify_self (h : Heap ν) (a : Addr) (f : ν → ν) :
    h.modify (some a) f a = (h a).map f := by
  simp [Heap.modify]

theorem Heap.modify_of_ne {h : Heap ν} {p : Ptr} {f : ν → ν} {b : Addr} (hb : p ≠ some b) :
    h.modify p f b = h b := by
  cases p with
  | none => rfl
  | some a =>
    have : b ≠ a := fun e => hb (by rw [e])
    simp [Heap.modify, Function.update_of_ne this]

theorem Heap.modify_eq_self {h : Heap ν} {a : Addr} {f : ν → ν} (hf : (h a).map f = h a) :
    h.modify (some a) f = h := by
  simp [Heap.modify, hf]

variable [Linked ν]

/-- A cell without its links. -/
def bare (v : ν) : ν := setPrev none (setNext none v)

@[simp] theorem bare_setPrev (p : Ptr) (v : ν) : bare (setPrev p v) = bare v := by
  simp only [bare, ← setPrev_setNext, setPrev_setPrev]

@[simp] theorem bare_setNext (p : Ptr) (v : ν) : bare (setNext p v) = bare v := by
  simp only [bare, setNext_setNext]

@[simp] theorem bare_bare (v : ν) : bare (bare v) = bare v :=
  (bare_setPrev none (setNext none v)).trans (bare_setNext none v)

theorem bare_of_links {v : ν} (hp : prev v = none) (hn : next v = none) : bare v = v := by
  have h1 : setNext none v = v := by rw [← hn]; exact setNext_next v
  have h2 : setPrev none v = v := by rw [← hp]; exact setPrev_prev v
  rw [bare, h1, h2]

/-- The heaps differ in links only. -/
def SameBare (h h' : Heap ν) : Prop := ∀ a, (h' a).map bare = (h a).map bare

theorem SameBare.refl (h : Heap ν) : SameBare h h := fun _ => rfl

theorem SameBare.trans {h h' h'' : Heap ν} (h1 : SameBare h h') (h2 : SameBare h' h'') : SameBare h h'' :=
  fun a => (h2 a).trans (h1 a)

theorem SameBare.modify (h : Heap ν) (p : Ptr) {f : ν → ν} (hf : ∀ v, bare (f v) = bare v) :
    SameBare h (h.modify p f) := by
  intro a
  by_cases hp : p = some a
  · rw [hp, Heap.modify_self, Option.map_map]
    exact congrArg (fun g => (h a).map g) (funext hf)
  · rw [Heap.modify_of_ne hp]

theorem SameBare.some_left {h h' : Heap ν} (hs : SameBare h h') {a : Addr} {v : ν} (ha : h a = some v) :
    ∃ v', h' a = some v' ∧ bare v' = bare v := by
  have := hs a
  rw [ha] at this
  exact Option.map_eq_some_iff.1 this

theorem SameBare.eq_none {h h' : Heap ν} (hs : SameBare h h') (a : Addr) : h' a = none ↔ h a = none := by
  have := hs a
  cases h1 : h a <;> cases h2 : h' a <;> simp_all

/-! ### Segments -/

/-- The cells at `xs` are linked in this order, from `p` on the left to `n` on the right. -/
def Seg (h : Heap ν) : Ptr → List Addr → Ptr → Prop
  | _, [], _ => True
  | p, a :: as, n => (∃ v, h a = some v ∧ prev v = p ∧ next v = as.head?.or n) ∧ Seg h (some a) as n

variable {h h' : Heap ν} {p n : Ptr} {xs ys : List Addr} {a : Addr}

theorem Seg.congr (hs : Seg h p xs n) (hc : ∀ a ∈ xs, h' a = h a) : Seg h' p xs n := by
  induction xs generalizing p with
  | nil => trivial
  | cons a as ih =>
    obtain ⟨⟨v, hv, hp, hn⟩, hs⟩ := hs
    exact ⟨⟨v, by rw [hc a (by simp), hv], hp, hn⟩, ih hs fun b hb => hc b (List.mem_cons_of_mem _ hb)⟩

theorem Seg.modify_of_notMem (hs : Seg h p xs n) {q : Ptr} {f : ν → ν} (hq : ∀ a ∈ xs, q ≠ some a) :
    Seg (h.modify q f) p xs n :=
  hs.congr fun a ha => Heap.modify_of_ne (hq a ha)

/-- **Cutting and gluing segments.** -/
theorem Seg.append : Seg h p (xs ++ ys) n ↔
    Seg h p xs (ys.head?.or n) ∧ Seg h (xs.getLast?.or p) ys n := by
  induction xs generalizing p with
  | nil => simp [Seg]
  | cons a as ih =>
    have e : ((a :: as).getLast?).or p = as.getLast?.or (some a) := by
      rw [List.getLast?_cons]; cases as.getLast? <;> rfl
    rw [List.cons_append, Seg, Seg, ih, e, List.head?_append, Option.or_assoc, and_assoc]

theorem Seg.exists_cell (hs : Seg h p xs n) (ha : a ∈ xs) : ∃ v, h a = some v := by
  obtain ⟨us, vs, rfl⟩ := List.append_of_mem ha
  obtain ⟨-, ⟨⟨v, hv, -, -⟩, -⟩⟩ := Seg.append.1 hs
  exact ⟨v, hv⟩

theorem Seg.setNext_last (hnd : xs.Nodup) (hs : Seg h p xs n) (m : Ptr) :
    Seg (h.modify xs.getLast? (setNext m)) p xs m := by
  rcases List.eq_nil_or_concat' xs with rfl | ⟨us, b, rfl⟩
  · trivial
  · obtain ⟨h1, ⟨v, hv, hp, -⟩, -⟩ := Seg.append.1 hs
    have hb : b ∉ us := fun hb => (List.nodup_append.1 hnd).2.2 b hb b (by simp) rfl
    rw [List.getLast?_concat]
    refine Seg.append.2 ⟨h1.modify_of_notMem fun a ha e => hb (by cases e; exact ha), ?_, trivial⟩
    exact ⟨setNext m v, by simp [hv], by simpa using hp, by simp⟩

theorem Seg.setPrev_head (hnd : xs.Nodup) (hs : Seg h p xs n) (q : Ptr) :
    Seg (h.modify xs.head? (setPrev q)) q xs n := by
  cases xs with
  | nil => trivial
  | cons a as =>
    obtain ⟨⟨v, hv, -, hn⟩, hs⟩ := hs
    have ha : a ∉ as := (List.nodup_cons.1 hnd).1
    refine ⟨⟨setPrev q v, by simp [hv], by simp, by simpa using hn⟩, ?_⟩
    exact hs.modify_of_notMem fun b hb e => ha (by cases e; exact hb)

/-! ### Taking a cell out -/

/-- Take the cell at `a` out of its list. -/
def unlink (h : Heap ν) (a : Addr) : Heap ν :=
  match h a with
  | none => h
  | some v =>
    ((h.modify (prev v) (setNext (next v))).modify (next v) (setPrev (prev v))).modify (some a) bare

theorem sameBare_unlink (h : Heap ν) (a : Addr) : SameBare h (unlink h a) := by
  unfold unlink
  split
  · exact SameBare.refl h
  · exact ((SameBare.modify _ _ (bare_setNext _)).trans (SameBare.modify _ _ (bare_setPrev _))).trans
      (SameBare.modify _ _ bare_bare)

theorem Seg.links (hs : Seg h none (xs ++ a :: ys) none) :
    ∃ v, h a = some v ∧ prev v = xs.getLast? ∧ next v = ys.head? := by
  obtain ⟨-, ⟨v, hv, hp, hn⟩, -⟩ := Seg.append.1 hs
  exact ⟨v, hv, by simpa using hp, by simpa using hn⟩

/-- **The rest of the list is linked after `unlink`**, and the cell has no links. -/
theorem Seg.unlink (hnd : (xs ++ a :: ys).Nodup) (hs : Seg h none (xs ++ a :: ys) none) :
    Seg (Lib.unlink h a) none (xs ++ ys) none ∧
      ∃ v, h a = some v ∧ Lib.unlink h a a = some (bare v) := by
  obtain ⟨v, hv, hp, hn⟩ := hs.links
  obtain ⟨h1, -, h2⟩ := Seg.append.1 hs
  obtain ⟨hx, hay, hd⟩ := List.nodup_append.1 hnd
  obtain ⟨hay', hy⟩ := List.nodup_cons.1 hay
  have hax : a ∉ xs := fun ha => hd a ha a (by simp) rfl
  have hlx : ∀ b ∈ ys, xs.getLast? ≠ some b := fun b hb e =>
    hd b (List.mem_of_getLast? e) b (List.mem_cons_of_mem _ hb) rfl
  have hhy : ∀ b ∈ xs, ys.head? ≠ some b := fun b hb e =>
    hd b hb b (List.mem_cons_of_mem _ (List.mem_of_mem_head? (by rw [e]; rfl))) rfl
  have hal : xs.getLast? ≠ some a := fun e => hax (List.mem_of_getLast? e)
  have hah : ys.head? ≠ some a := fun e => hay' (List.mem_of_mem_head? (by rw [e]; rfl))
  have hself : ∀ b, b ∈ xs ∨ b ∈ ys → some a ≠ some b := by
    rintro b hb e
    cases e
    rcases hb with hb | hb
    · exact hax hb
    · exact hay' hb
  have e : Lib.unlink h a = ((h.modify xs.getLast? (setNext ys.head?)).modify ys.head?
      (setPrev xs.getLast?)).modify (some a) bare := by
    rw [Lib.unlink, hv, ← hp, ← hn]
  rw [e]
  refine ⟨Seg.append.2 ⟨?_, ?_⟩, v, hv, ?_⟩
  · -- the part before `a`: its last cell now points at the first one after `a`
    have := (h1.setNext_last hx ys.head?).modify_of_notMem (f := setPrev xs.getLast?) hhy
    rw [Option.or_none]
    exact this.modify_of_notMem fun b hb => hself b (.inl hb)
  · -- the part after `a`: its first cell now points back at the last one before `a`
    have := (h2.modify_of_notMem (f := setNext ys.head?) hlx).setPrev_head hy xs.getLast?
    rw [Option.or_none]
    exact this.modify_of_notMem fun b hb => hself b (.inr hb)
  · rw [Heap.modify_self, Heap.modify_of_ne hah, Heap.modify_of_ne hal, hv]
    rfl

/-! ### Putting a cell in front -/

/-- Put the unlinked cell at `a` in front of the list that starts at `top`. -/
def pushFront (h : Heap ν) (top : Ptr) (a : Addr) : Heap ν :=
  (h.modify top (setPrev (some a))).modify (some a) (setNext top)

theorem sameBare_pushFront (h : Heap ν) (top : Ptr) (a : Addr) : SameBare h (pushFront h top a) :=
  (SameBare.modify _ _ (bare_setPrev _)).trans (SameBare.modify _ _ (bare_setNext _))

/-- **The list with `a` in front is linked after `pushFront`.** -/
theorem Seg.pushFront (hnd : xs.Nodup) (ha : a ∉ xs) (hs : Seg h none xs none) {v : ν} (hv : h a = some v)
    (hp : prev v = none) : Seg (Lib.pushFront h xs.head? a) none (a :: xs) none := by
  have hne : xs.head? ≠ some a := fun e => ha (List.mem_of_mem_head? (by rw [e]; rfl))
  refine ⟨⟨setNext xs.head? v, ?_, by simpa using hp, by simp⟩, ?_⟩
  · rw [Lib.pushFront, Heap.modify_self, Heap.modify_of_ne hne, hv]
    rfl
  · apply (hs.setPrev_head hnd (some a)).modify_of_notMem
    rintro b hb e
    cases e
    exact ha hb

/-! ### Walks -/

/-- Following the links `step` from `p` visits the cells at `xs`, in this order, and ends at the null
pointer. -/
def Follows (h : Heap ν) (step : ν → Ptr) : Ptr → List Addr → Prop
  | p, [] => p = none
  | p, a :: as => p = some a ∧ ∃ v, h a = some v ∧ Follows h step (step v) as

omit [Linked ν] in
theorem Follows.unique {step : ν → Ptr} (h1 : Follows h step p xs) (h2 : Follows h step p ys) : xs = ys := by
  induction xs generalizing p ys with
  | nil =>
    cases ys with
    | nil => rfl
    | cons b bs => rw [Follows] at h1; rw [Follows, h1] at h2; simp at h2
  | cons a as ih =>
    obtain ⟨rfl, v, hv, h1⟩ := h1
    cases ys with
    | nil => rw [Follows] at h2; simp at h2
    | cons b bs =>
      obtain ⟨e, w, hw, h2⟩ := h2
      cases e
      cases hv.symm.trans hw
      rw [ih h1 h2]

theorem Seg.follows_next (hs : Seg h p xs none) : Follows h next xs.head? xs := by
  induction xs generalizing p with
  | nil => rfl
  | cons a as ih =>
    obtain ⟨⟨v, hv, -, hn⟩, hs⟩ := hs
    refine ⟨rfl, v, hv, ?_⟩
    rw [hn, Option.or_none]
    exact ih hs

theorem Seg.follows_prev (hs : Seg h none xs n) : Follows h prev xs.getLast? xs.reverse := by
  induction xs using List.reverseRecOn generalizing n with
  | nil => rfl
  | append_singleton us b ih =>
    obtain ⟨h1, ⟨v, hv, hp, -⟩, -⟩ := Seg.append.1 hs
    rw [List.getLast?_concat, List.reverse_append]
    refine ⟨rfl, v, hv, ?_⟩
    rw [hp, Option.or_none]
    exact ih h1

end HyScanCache.Lib
