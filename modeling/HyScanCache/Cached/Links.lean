import HyScanCache.Cached

/-!
# The list of used objects

`UsedList priv ps` says that the list of the cache runs through the blocks `ps`, from `top_object` to
`bottom_object`.  The five pointer cases of `removeObjectFromUsed` all come to the `unlink` of the heap
(`removeObjectFromUsed_eq`), and `placeObjectOnTopOfUsed` comes to `unlink` and `pushFront`; on a block that is
not in the list the former does nothing (`removeObjectFromUsed_notMem`).
-/

namespace HyScanCache.Cached

open Lib Linked HyScanCachedPrivate

variable {priv priv' : HyScanCachedPrivate} {xs ys ps : List Addr} {a : Addr} {o : ObjectInfo}

/-! ### Accesses to live blocks -/

theorem load_live {heap : Heap ObjectInfo} (h : heap a = some o) : load heap (some a) = .ok o := by
  simp [load, h]

theorem store_live (h : priv.heap a = some o) (f : ObjectInfo → ObjectInfo) :
    priv.store (some a) f = .ok { priv with heap := priv.heap.modify (some a) f } := by
  simp [store, load_live h]

theorem free_live (h : priv.heap a = some o) :
    priv.free (some a) = .ok { priv with heap := Function.update priv.heap a none } := by
  simp [free, load_live h]

theorem modify_congr {h : Heap ObjectInfo} {f g : ObjectInfo → ObjectInfo} (ha : h a = some o)
    (hfg : f o = g o) : h.modify (some a) f = h.modify (some a) g := by
  simp [Heap.modify, ha, hfg]

theorem bare_of_prev (h : o.prev = none) : bare o = { o with next := none } := by
  cases o
  cases h
  rfl

theorem bare_of_next (h : o.next = none) : bare o = { o with prev := none } := by
  cases o
  cases h
  rfl

/-! ### The list -/

/-- The list of the cache runs through the blocks `ps`. -/
structure UsedList (priv : HyScanCachedPrivate) (ps : List Addr) : Prop where
  nodup : ps.Nodup
  top : priv.topObject = ps.head?
  bottom : priv.bottomObject = ps.getLast?
  seg : Seg priv.heap none ps none

/-- The block is live and its links are null. -/
def Detached (priv : HyScanCachedPrivate) (a : Addr) : Prop :=
  ∃ o, priv.heap a = some o ∧ o.prev = none ∧ o.next = none

/-- Only the list has changed: its ends, and links in the objects. -/
structure LinksOnly (priv priv' : HyScanCachedPrivate) : Prop where
  cacheSize : priv'.cacheSize = priv.cacheSize
  usedSize : priv'.usedSize = priv.usedSize
  objects : priv'.objects = priv.objects
  heap : SameBare priv.heap priv'.heap

theorem LinksOnly.trans {priv'' : HyScanCachedPrivate} (h1 : LinksOnly priv priv')
    (h2 : LinksOnly priv' priv'') : LinksOnly priv priv'' :=
  ⟨h2.cacheSize.trans h1.cacheSize, h2.usedSize.trans h1.usedSize, h2.objects.trans h1.objects,
    h1.heap.trans h2.heap⟩

theorem UsedList.live (hl : UsedList priv ps) (ha : a ∈ ps) : ∃ o, priv.heap a = some o :=
  hl.seg.exists_cell ha

theorem UsedList.ptr_ne (hl : UsedList priv (xs ++ a :: ys)) {b : Addr} (hb : b ∈ xs ∨ b ∈ ys) :
    (some b : Ptr) ≠ some a := by
  obtain ⟨-, hay, hd⟩ := List.nodup_append.1 hl.nodup
  rintro ⟨⟩
  rcases hb with hb | hb
  · exact hd a hb a (by simp) rfl
  · exact (List.nodup_cons.1 hay).1 hb

theorem UsedList.ends_ne (hl : UsedList priv (xs ++ a :: ys)) (hne : xs ≠ [] ∨ ys ≠ []) :
    ¬ (priv.topObject = priv.bottomObject ∧ priv.topObject = some a) := by
  rintro ⟨htb, hta⟩
  have hnd := hl.nodup
  rw [hl.top] at htb hta
  rw [hl.bottom] at htb
  rcases List.eq_nil_or_concat' ys with rfl | ⟨zs, c, rfl⟩
  · cases xs with
    | nil => simp at hne
    | cons b xs =>
      have : b = a := by simpa using hta
      simp [this] at hnd
  · have : c = a := by
      have := htb.symm.trans hta
      rw [← List.cons_append, ← List.append_assoc, List.getLast?_concat] at this
      simpa using this
    subst this
    exact absurd hnd (by simp [List.nodup_append])

theorem UsedList.head_eq (hl : UsedList priv (xs ++ a :: ys)) (hne : xs ≠ []) :
    (xs ++ ys).head? = priv.topObject := by
  rw [hl.top, List.head?_append_of_ne_nil _ hne, List.head?_append_of_ne_nil _ hne]

theorem UsedList.getLast_eq (hl : UsedList priv (xs ++ a :: ys)) (hne : ys ≠ []) :
    (xs ++ ys).getLast? = priv.bottomObject := by
  rw [hl.bottom, List.getLast?_append_of_ne_nil _ hne, List.getLast?_append_of_ne_nil _ (List.cons_ne_nil a ys),
    List.getLast?_cons_of_ne_nil hne]

/-! ### `hyscan_cached_remove_object_from_used` -/

/-- **Every case of the source is the same `unlink`.** -/
theorem removeObjectFromUsed_eq (hl : UsedList priv (xs ++ a :: ys)) :
    removeObjectFromUsed priv (some a) = .ok { priv with
      heap := unlink priv.heap a
      topObject := (xs ++ ys).head?
      bottomObject := (xs ++ ys).getLast? } := by
  obtain ⟨o, ho, hp, hn⟩ := hl.seg.links
  have hu : unlink priv.heap a = ((priv.heap.modify xs.getLast? (setNext ys.head?)).modify ys.head?
      (setPrev xs.getLast?)).modify (some a) bare := by
    rw [unlink, ho, ← hp, ← hn]
  rw [hu, removeObjectFromUsed]
  rcases List.eq_nil_or_concat' xs with rfl | ⟨us, b, rfl⟩ <;> rcases ys with _ | ⟨c, ys⟩
  · -- the only object of the list
    have hb : bare o = o := bare_of_links hp hn
    rw [if_pos ⟨by rw [hl.top, hl.bottom]; rfl, by rw [hl.top]; rfl⟩]
    simp [Heap.modify_eq_self, ho, hb]
  · -- the first one
    have hca := hl.ptr_ne (b := c) (by simp)
    obtain ⟨oc, hoc⟩ := hl.live (a := c) (by simp)
    replace hp : o.prev = none := hp
    replace hn : o.next = some c := hn
    have hbot : (c :: ys).getLast? = priv.bottomObject := hl.getLast_eq (List.cons_ne_nil c ys)
    rw [if_neg (hl.ends_ne (by simp)), load_live ho, Exec.ok_bind, if_neg (by simp [hn]), if_neg (by simp [hp]),
      if_pos hp, hn, store_live (o := oc) (by exact hoc), Exec.ok_bind,
      store_live (o := o) (by simp [Heap.modify_of_ne hca, ho])]
    simp only [List.nil_append, List.head?_cons, List.getLast?_nil, hbot, Heap.modify_none]
    rw [modify_congr (g := bare) (o := o) (by simp [Heap.modify_of_ne hca, ho]) (bare_of_prev hp).symm]
    rfl
  · -- the last one
    have hba := hl.ptr_ne (b := b) (by simp)
    obtain ⟨ob, hob⟩ := hl.live (a := b) (by simp)
    replace hp : o.prev = some b := by rw [← List.getLast?_concat (l := us)]; exact hp
    replace hn : o.next = none := hn
    have htop : (us ++ [b]).head? = priv.topObject := by
      rw [← hl.head_eq (by simp), List.append_nil]
    rw [if_neg (hl.ends_ne (by simp)), load_live ho, Exec.ok_bind, if_neg (by simp [hp]), if_neg (by simp [hn]),
      if_neg (by simp [hp]), hp, store_live (o := ob) (by exact hob), Exec.ok_bind,
      store_live (o := o) (by simp [Heap.modify_of_ne hba, ho])]
    simp only [List.head?_nil, List.append_nil, List.getLast?_concat, htop, Heap.modify_none]
    rw [modify_congr (g := bare) (o := o) (by simp [Heap.modify_of_ne hba, ho]) (bare_of_next hn).symm]
    rfl
  · -- one in the middle
    have hba := hl.ptr_ne (b := b) (by simp)
    have hca := hl.ptr_ne (b := c) (by simp)
    have hbc : (some b : Ptr) ≠ some c := by
      rintro ⟨⟩
      have := hl.nodup
      simp [List.nodup_append] at this
    obtain ⟨ob, hob⟩ := hl.live (a := b) (by simp)
    obtain ⟨oc, hoc⟩ := hl.live (a := c) (by simp)
    replace hp : o.prev = some b := by rw [← List.getLast?_concat (l := us)]; exact hp
    replace hn : o.next = some c := hn
    have htop : (us ++ [b] ++ c :: ys).head? = priv.topObject := hl.head_eq (by simp)
    have hbot : (us ++ [b] ++ c :: ys).getLast? = priv.bottomObject := hl.getLast_eq (List.cons_ne_nil c ys)
    rw [if_neg (hl.ends_ne (by simp)), load_live ho, Exec.ok_bind, if_neg (by simp [hp]), if_pos (by simp [hp, hn]),
      hp, store_live (o := ob) (by exact hob), Exec.ok_bind,
      load_live (o := o) (by simp [Heap.modify_of_ne hba, ho]), Exec.ok_bind, hn,
      store_live (o := oc) (by simp [Heap.modify_of_ne hbc, hoc]), Exec.ok_bind,
      store_live (o := o) (by simp [Heap.modify_of_ne hba, Heap.modify_of_ne hca, ho]), htop, hbot, hp,
      List.getLast?_concat]
    rfl

/-- **A block of the list is taken out.** -/
theorem removeObjectFromUsed_mem (hl : UsedList priv (xs ++ a :: ys)) :
    ∃ priv', removeObjectFromUsed priv (some a) = .ok priv' ∧ UsedList priv' (xs ++ ys) ∧
      LinksOnly priv priv' ∧ Detached priv' a := by
  obtain ⟨hseg, o, -, ho⟩ := hl.seg.unlink hl.nodup
  have hnd : (xs ++ ys).Nodup := hl.nodup.sublist (List.Sublist.append_left (List.sublist_cons_self a ys) xs)
  exact ⟨_, removeObjectFromUsed_eq hl, ⟨hnd, rfl, rfl, hseg⟩, ⟨rfl, rfl, rfl, sameBare_unlink _ _⟩,
    bare o, ho, rfl, rfl⟩

theorem removeObjectFromUsed_notMem (hl : UsedList priv ps) (ha : a ∉ ps) (hd : Detached priv a) :
    removeObjectFromUsed priv (some a) = .ok priv := by
  obtain ⟨o, ho, hp, hn⟩ := hd
  have htop : priv.topObject ≠ some a := by
    rw [hl.top]
    exact fun e => ha (List.mem_of_mem_head? (by rw [e]; rfl))
  rw [removeObjectFromUsed, if_neg (fun h => htop h.2), load_live ho]
  simp [hp, hn]

/-! ### `hyscan_cached_place_object_on_top_of_used` -/

theorem placeObjectOnTopOfUsed_eq {priv₁ : HyScanCachedPrivate}
    (hr : removeObjectFromUsed priv (some a) = .ok priv₁) (hl : UsedList priv₁ ps) (ha : a ∉ ps)
    (hd : Detached priv₁ a) :
    placeObjectOnTopOfUsed priv (some a) = .ok { priv₁ with
      heap := pushFront priv₁.heap ps.head? a
      topObject := some a
      bottomObject := (a :: ps).getLast? } := by
  obtain ⟨o, ho, hp, hn⟩ := hd
  rw [placeObjectOnTopOfUsed, hr, Exec.ok_bind]
  cases ps with
  | nil =>
    have hself : (priv₁.heap a).map (setNext none) = priv₁.heap a := by
      rw [ho, ← hn]
      rfl
    rw [if_pos ⟨by rw [hl.top]; rfl, by rw [hl.bottom]; rfl⟩]
    simp [pushFront, Heap.modify_eq_self hself]
  | cons b ps =>
    obtain ⟨ob, hob⟩ := hl.live (a := b) (by simp)
    have hba : (some b : Ptr) ≠ some a := by
      rintro ⟨⟩
      simp at ha
    have htop : priv₁.topObject = some b := hl.top
    have hbot : (a :: b :: ps).getLast? = priv₁.bottomObject := by
      rw [hl.bottom]
      simp [List.getLast?_cons]
    rw [if_neg (by simp [htop]), htop, store_live (o := ob) (by exact hob), Exec.ok_bind, htop,
      store_live (o := o) (by simp [Heap.modify_of_ne hba, ho]), hbot]
    rfl

theorem placeObjectOnTopOfUsed_notMem (hl : UsedList priv ps) (ha : a ∉ ps) (hd : Detached priv a) :
    ∃ priv', placeObjectOnTopOfUsed priv (some a) = .ok priv' ∧ UsedList priv' (a :: ps) ∧
      LinksOnly priv priv' := by
  refine ⟨_, placeObjectOnTopOfUsed_eq (removeObjectFromUsed_notMem hl ha hd) hl ha hd,
    ⟨List.nodup_cons.2 ⟨ha, hl.nodup⟩, rfl, rfl, ?_⟩, rfl, rfl, rfl, sameBare_pushFront _ _ _⟩
  obtain ⟨o, ho, hp, -⟩ := hd
  exact hl.seg.pushFront hl.nodup ha ho hp

/-- **A block of the list is moved to the top.** -/
theorem placeObjectOnTopOfUsed_mem (hl : UsedList priv (xs ++ a :: ys)) :
    ∃ priv', placeObjectOnTopOfUsed priv (some a) = .ok priv' ∧ UsedList priv' (a :: (xs ++ ys)) ∧
      LinksOnly priv priv' := by
  obtain ⟨priv₁, hr, hl₁, hlo, hd⟩ := removeObjectFromUsed_mem hl
  have ha : a ∉ xs ++ ys := fun ha => hl.ptr_ne (List.mem_append.1 ha) rfl
  refine ⟨_, placeObjectOnTopOfUsed_eq hr hl₁ ha hd, ⟨List.nodup_cons.2 ⟨ha, hl₁.nodup⟩, rfl, rfl, ?_⟩,
    hlo.trans ⟨rfl, rfl, rfl, sameBare_pushFront _ _ _⟩⟩
  obtain ⟨o, ho, hp, -⟩ := hd
  exact hl₁.seg.pushFront hl₁.nodup ha ho hp

end HyScanCache.Cached
