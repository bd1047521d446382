import HyScanCache.Cached.Links
import HyScanCache.Store

/-!
# The table of objects

`Holding priv l` says that the table holds the entries `l`, each in the live block it is paired with, that
nothing else is live, and that the memory in use is charged for them; the order of `l` does not matter.
`removeObjectFromUsed` and `placeObjectOnTopOfUsed` change links only and keep it (`LinksOnly.holding`);
`dropObject` takes one entry out of it.
-/

namespace HyScanCache.Cached

open Lib Recency HyScanCachedPrivate

variable {priv priv' : HyScanCachedPrivate} {a : Addr} {o o' : ObjectInfo} {e : Entry}

/-! ### Entries in memory -/

/-- The object carries the entry. -/
structure Holds (o : ObjectInfo) (e : Entry) : Prop where
  hash : o.hash = e.key
  detail : o.detail = e.detail
  allocated : o.allocated.toNat = e.allocated
  size : o.size.toNat = e.bytes.length
  length : o.data.length = e.allocated
  take : o.data.take e.bytes.length = e.bytes

theorem Holds.of_bare (h : Holds o e) (hb : bare o' = bare o) : Holds o' e where
  hash := (congrArg ObjectInfo.hash hb).trans h.hash
  detail := (congrArg ObjectInfo.detail hb).trans h.detail
  allocated := (congrArg (fun o => o.allocated.toNat) hb).trans h.allocated
  size := (congrArg (fun o => o.size.toNat) hb).trans h.size
  length := (congrArg (fun o => o.data.length) hb).trans h.length
  take := (congrArg (fun o => o.data.take e.bytes.length) hb).trans h.take

/-- The address of a block and the entry in it. -/
abbrev Cell := Addr × Entry

/-- The key of a cell. -/
def Cell.key (x : Cell) : UInt64 := x.2.key

/-- The memory a cell is charged for. -/
def Cell.cost (x : Cell) : ℕ := x.2.footprint

/-- The table entry of a cell: both pointers lead to its block. -/
def Cell.slot (x : Cell) : Slot := ⟨some x.1, some x.1⟩

/-- The table holds the entries of `l`. -/
structure Holding (priv : HyScanCachedPrivate) (l : List Cell) : Prop where
  addrs : (l.map Prod.fst).Nodup
  keys : Distinct Cell.key l
  table : ∃ cells : List Cell, cells.Perm l ∧ priv.objects = cells.map Cell.slot
  object : ∀ x ∈ l, ∃ o, priv.heap x.1 = some o ∧ Holds o x.2
  live : ∀ a, priv.heap a ≠ none → a ∈ l.map Prod.fst
  used : priv.usedSize.toNat = total Cell.cost l

variable {l l' : List Cell} {x : Cell}

theorem Holding.perm (h : Holding priv l) (hp : l.Perm l') : Holding priv l' where
  addrs := (hp.map _).nodup_iff.1 h.addrs
  keys := h.keys.perm hp
  table := by
    obtain ⟨cells, hc, ht⟩ := h.table
    exact ⟨cells, hc.trans hp, ht⟩
  object x hx := h.object x (hp.mem_iff.2 hx)
  live a ha := (hp.map _).mem_iff.1 (h.live a ha)
  used := h.used.trans (total_perm _ hp)

theorem Holding.addr_ne (h : Holding priv (x :: l)) {y : Cell} (hy : y ∈ l) : y.1 ≠ x.1 := fun e =>
  (List.nodup_cons.1 h.addrs).1 (by rw [← e]; exact List.mem_map_of_mem hy)

theorem Holding.ne_of_dead (h : Holding priv l) (ha : priv.heap a = none) (hx : x ∈ l) : x.1 ≠ a := by
  rintro rfl
  obtain ⟨o, ho, -⟩ := h.object x hx
  exact absurd ha (by simp [ho])

theorem LinksOnly.holding (hlo : LinksOnly priv priv') (h : Holding priv l) : Holding priv' l where
  addrs := h.addrs
  keys := h.keys
  table := by
    rw [hlo.objects]
    exact h.table
  object x hx := by
    obtain ⟨o, ho, hh⟩ := h.object x hx
    obtain ⟨o', ho', hb⟩ := hlo.heap.some_left ho
    exact ⟨o', ho', hh.of_bare hb⟩
  live a ha := h.live a fun hn => ha ((hlo.heap.eq_none a).2 hn)
  used := by rw [hlo.usedSize, h.used]

/-! ### The operations of the table -/

theorem extract_cells {heap : Heap ObjectInfo} (k : UInt64) (hk : Distinct Cell.key l)
    (ho : ∀ x ∈ l, ∃ o, heap x.1 = some o ∧ Holds o x.2) :
    extract heap k (l.map Cell.slot) =
      .ok ((find Cell.key k l).map Cell.slot, (erase Cell.key k l).map Cell.slot) := by
  induction l with
  | nil => rfl
  | cons x l ih =>
    obtain ⟨o, hox, hh⟩ := ho x (by simp)
    have hhash : o.hash = x.key := hh.hash
    rw [List.map_cons, extract, Cell.slot, load_live hox, Exec.ok_bind, hhash]
    by_cases he : x.key = k
    · have hrest : erase Cell.key k (x :: l) = l := by
        rw [← he]
        exact erase_cons_self hk
      rw [if_pos he, hrest]
      simp [find, he, Cell.slot]
    · rw [if_neg he, ih (hk.sublist (List.sublist_cons_self x l)) fun y hy => ho y (List.mem_cons_of_mem _ hy)]
      simp [find, erase, he, Cell.slot]

/-- A search in a memory that agrees with that of the cache on the blocks of the table. -/
theorem Holding.extract (h : Holding priv l) {heap : Heap ObjectInfo} (hheap : ∀ x ∈ l, heap x.1 = priv.heap x.1)
    (k : UInt64) : ∃ cells : List Cell, cells.Perm (erase Cell.key k l) ∧
      extract heap k priv.objects = .ok ((find Cell.key k l).map Cell.slot, cells.map Cell.slot) := by
  obtain ⟨cells, hp, ht⟩ := h.table
  have hk : Distinct Cell.key cells := h.keys.perm hp.symm
  refine ⟨erase Cell.key k cells, hp.filter _, ?_⟩
  rw [ht, extract_cells k hk, ← find_perm h.keys hp.symm]
  intro x hx
  have hxl := hp.mem_iff.1 hx
  rw [hheap x hxl]
  exact h.object x hxl

/-- **A lookup finds the block of the key.** -/
theorem Holding.lookup (h : Holding priv l) (k : UInt64) :
    priv.lookup k = .ok ((find Cell.key k l).map Prod.fst) := by
  obtain ⟨cells, -, he⟩ := h.extract (fun _ _ => rfl) k
  rw [HyScanCachedPrivate.lookup, he, Exec.ok_bind]
  cases find Cell.key k l <;> rfl

/-- The entry of a block taken away: its block is dead, its table entry is gone, its charge refunded. -/
theorem Holding.uncons (h : Holding priv (x :: l)) (hheap : priv'.heap = Function.update priv.heap x.1 none)
    {cells : List Cell} (hp : cells.Perm l) (ht : priv'.objects = cells.map Cell.slot)
    (hu : priv'.usedSize.toNat + x.cost = priv.usedSize.toNat) : Holding priv' l := by
  refine ⟨(List.nodup_cons.1 h.addrs).2, (List.nodup_cons.1 h.keys).2, ⟨cells, hp, ht⟩, ?_, ?_, ?_⟩
  · intro y hy
    obtain ⟨o, ho, hh⟩ := h.object y (List.mem_cons_of_mem _ hy)
    exact ⟨o, by rw [hheap, Function.update_of_ne (h.addr_ne hy), ho], hh⟩
  · intro b hb
    rw [hheap] at hb
    by_cases hbx : b = x.1
    · simp [hbx] at hb
    · have := h.live b (by simpa [Function.update_of_ne hbx] using hb)
      exact (List.mem_cons.1 this).resolve_left hbx
  · have := h.used
    rw [total_cons] at this
    omega

theorem Holding.cons (h : Holding priv l) (ha : priv.heap a = none) (hk : find Cell.key e.key l = none)
    (hh : Holds o e) (hheap : priv'.heap = Function.update priv.heap a (some o))
    (ht : priv'.objects = Cell.slot (a, e) :: priv.objects)
    (hu : priv'.usedSize.toNat = priv.usedSize.toNat + e.footprint) : Holding priv' ((a, e) :: l) := by
  have hne : ∀ y ∈ l, y.1 ≠ a := fun y hy => h.ne_of_dead ha hy
  refine ⟨List.nodup_cons.2 ⟨?_, h.addrs⟩, List.nodup_cons.2 ⟨?_, h.keys⟩, ?_, ?_, ?_, ?_⟩
  · intro hm
    obtain ⟨y, hy, he⟩ := List.mem_map.1 hm
    exact hne y hy he
  · intro hm
    obtain ⟨y, hy, he⟩ := List.mem_map.1 hm
    exact find_eq_none.1 hk y hy he
  · obtain ⟨cells, hp, htab⟩ := h.table
    exact ⟨(a, e) :: cells, hp.cons _, by rw [ht, htab]; rfl⟩
  · intro y hy
    rcases List.mem_cons.1 hy with rfl | hy
    · exact ⟨o, by rw [hheap, Function.update_self], hh⟩
    · obtain ⟨oy, hoy, hhy⟩ := h.object y hy
      exact ⟨oy, by rw [hheap, Function.update_of_ne (hne y hy), hoy], hhy⟩
  · intro b hb
    rw [hheap] at hb
    by_cases hba : b = a
    · simp [hba]
    · exact List.mem_cons_of_mem _ (h.live b (by simpa [Function.update_of_ne hba] using hb))
  · rw [hu, h.used, total_cons, Nat.add_comm]
    rfl

theorem Holding.replace (h : Holding priv (x :: l)) (hk : e.key = x.key) (hf : e.footprint = x.cost)
    (hh : Holds o e) (hheap : priv'.heap = Function.update priv.heap x.1 (some o))
    (ht : priv'.objects = priv.objects) (hu : priv'.usedSize = priv.usedSize) :
    Holding priv' ((x.1, e) :: l) := by
  have hne : ∀ y ∈ l, y.1 ≠ x.1 := fun y hy => h.addr_ne hy
  have hkey : Cell.key (x.1, e) = x.key := hk
  refine ⟨h.addrs, ?_, ?_, ?_, ?_, ?_⟩
  · unfold Distinct
    rw [List.map_cons, hkey]
    exact h.keys
  · -- the table entries show addresses only
    obtain ⟨cells, hp, htab⟩ := h.table
    let f : Cell → Cell := fun y => if y.1 = x.1 then (x.1, e) else y
    have hslot : ∀ y : Cell, (f y).slot = y.slot := by
      intro y
      simp only [f]
      split
      · next he => rw [Cell.slot, Cell.slot, he]
      · rfl
    have hl : l.map f = l := by
      conv_rhs => rw [← List.map_id l]
      exact List.map_congr_left fun y hy => by simp [f, hne y hy]
    refine ⟨cells.map f, ?_, ?_⟩
    · have := hp.map f
      rwa [List.map_cons, hl, show f x = (x.1, e) by simp [f]] at this
    · rw [ht, htab, List.map_map]
      exact List.map_congr_left fun y _ => (hslot y).symm
  · intro y hy
    rcases List.mem_cons.1 hy with rfl | hy
    · exact ⟨o, by rw [hheap, Function.update_self], hh⟩
    · obtain ⟨oy, hoy, hhy⟩ := h.object y (List.mem_cons_of_mem _ hy)
      exact ⟨oy, by rw [hheap, Function.update_of_ne (hne y hy), hoy], hhy⟩
  · intro b hb
    rw [hheap] at hb
    by_cases hbx : b = x.1
    · simp [hbx]
    · exact h.live b (by simpa [Function.update_of_ne hbx] using hb)
  · have hc : Cell.cost (x.1, e) = x.cost := hf
    rw [hu, h.used, total_cons, total_cons, hc]

theorem toNat_charge (n : UInt32) : (OBJECT_HEADER_SIZE + n.toUInt64).toNat = headerSize + n.toNat := by
  have h : OBJECT_HEADER_SIZE.toNat = headerSize := rfl
  have hn := n.toNat_lt
  rw [UInt64.toNat_add, UInt32.toNat_toUInt64, h]
  unfold headerSize
  omega

/-- A refund that was charged does not wrap. -/
theorem toNat_refund {u : UInt64} {n : UInt32} (h : headerSize + n.toNat ≤ u.toNat) :
    (u - (OBJECT_HEADER_SIZE + n.toUInt64)).toNat = u.toNat - (headerSize + n.toNat) := by
  rw [UInt64.toNat_sub_of_le _ _ (by rw [UInt64.le_iff_toNat_le, toNat_charge]; exact h), toNat_charge]

/-! ### The cache between two calls -/

/-- The cache represents the cells `l`: the table holds them, and the list runs through their blocks in this
order. -/
structure Rep (priv : HyScanCachedPrivate) (l : List Cell) : Prop where
  holding : Holding priv l
  list : UsedList priv (l.map Prod.fst)

theorem UsedList.congr {ps : List Addr} (hl : UsedList priv ps) (htop : priv'.topObject = priv.topObject)
    (hbot : priv'.bottomObject = priv.bottomObject) (hheap : ∀ a ∈ ps, priv'.heap a = priv.heap a) :
    UsedList priv' ps :=
  ⟨hl.nodup, htop.trans hl.top, hbot.trans hl.bottom, hl.seg.congr hheap⟩

theorem perm_front (us vs : List Cell) (x : Cell) : (us ++ x :: vs).Perm (x :: (us ++ vs)) :=
  List.perm_middle

/-! ### `hyscan_cached_drop_object` -/

/-- **Dropping an object of the list** takes its entry out of the table and frees its block. -/
theorem dropObject_spec (us vs : List Cell) (h : Rep priv (us ++ x :: vs)) :
    ∃ priv', dropObject priv (some x.1) = .ok priv' ∧ Rep priv' (us ++ vs) ∧
      priv'.cacheSize = priv.cacheSize := by
  have hl := h.list
  rw [List.map_append, List.map_cons] at hl
  obtain ⟨priv₁, hr, hl₁, hlo, -⟩ := removeObjectFromUsed_mem hl
  have h₁ := hlo.holding (h.holding.perm (perm_front us vs x))
  have her : erase Cell.key x.key (x :: (us ++ vs)) = us ++ vs := erase_cons_self h₁.keys
  obtain ⟨o, ho, hh⟩ := h₁.object x (by simp)
  have hcost : headerSize + o.allocated.toNat = x.cost := by rw [hh.allocated]; rfl
  have hused := h₁.used
  rw [total_cons] at hused
  have hrefund := toNat_refund (u := priv₁.usedSize) (n := o.allocated) (by omega)
  -- the entry is split off the table, then its block is freed
  obtain ⟨cells, hp, hex⟩ := h₁.extract (fun _ _ => rfl) x.key
  rw [her] at hp
  rw [(find_eq_some h₁.keys).2 ⟨by simp, rfl⟩] at hex
  have hdrop : dropObject priv (some x.1) = .ok { priv₁ with
      usedSize := priv₁.usedSize - (OBJECT_HEADER_SIZE + o.allocated.toUInt64)
      objects := cells.map Cell.slot
      heap := Function.update priv₁.heap x.1 none } := by
    have hash : o.hash = x.key := hh.hash
    rw [dropObject, hr, Exec.ok_bind, load_live ho, Exec.ok_bind, HyScanCachedPrivate.remove, hash, hex]
    exact free_live (o := o) ho
  refine ⟨_, hdrop, ⟨h₁.uncons rfl hp rfl (by simp only; omega), ?_⟩, hlo.cacheSize⟩
  rw [List.map_append]
  refine hl₁.congr rfl rfl fun b hb => Function.update_of_ne (fun e => ?_) _ _
  exact hl.ptr_ne (List.mem_append.1 hb) (by rw [e])

/-! ### `hyscan_cached_free_used` -/

theorem Rep.bottom_ne_none (h : Rep priv l) : priv.bottomObject ≠ none ↔ l ≠ [] := by
  rw [h.list.bottom]
  simp

/-- The loop goes on while the list is over the budget that the request leaves. -/
theorem Rep.needsRoom_iff (h : Rep priv l) {request : UInt32}
    (hlt : total Cell.cost l + request.toNat < 2 ^ 64) :
    needsRoom priv request ↔ priv.cacheSize.toNat - request.toNat < total Cell.cost l := by
  have hsum : (priv.usedSize + request.toUInt64).toNat = total Cell.cost l + request.toNat := by
    rw [UInt64.toNat_add, UInt32.toNat_toUInt64, h.holding.used, Nat.mod_eq_of_lt hlt]
  rw [needsRoom, h.bottom_ne_none, UInt64.lt_iff_toNat_lt, hsum]
  cases l with
  | nil => simp
  | cons x l =>
    have := x.2.footprint_gt
    simp only [total_cons, Cell.cost, ne_eq, reduceCtorEq, not_false_eq_true, true_and]
    omega

/-- **The eviction loop** keeps the longest prefix of the list that leaves room for the request; a round for
every object of the list is enough. -/
theorem freeUsedLoop_spec {request : UInt32} {fuel : ℕ} (h : Rep priv l) (hf : l.length ≤ fuel)
    (hlt : total Cell.cost l + request.toNat < 2 ^ 64) :
    ∃ priv', freeUsedLoop request fuel priv = .ok priv' ∧
      Rep priv' (keepFit Cell.cost (priv.cacheSize.toNat - request.toNat) l) ∧
      priv'.cacheSize = priv.cacheSize := by
  induction fuel generalizing priv l with
  | zero =>
    obtain rfl : l = [] := by simpa using hf
    have hn : ¬ needsRoom priv request := by
      rw [h.needsRoom_iff hlt]
      simp
    exact ⟨priv, by rw [freeUsedLoop, if_neg hn], h, rfl⟩
  | succ fuel ih =>
    by_cases hn : needsRoom priv request
    · have hover := (h.needsRoom_iff hlt).1 hn
      rcases List.eq_nil_or_concat' l with rfl | ⟨us, x, rfl⟩
      · simp at hover
      · obtain ⟨priv₁, hd, h₁, hc⟩ := dropObject_spec us [] h
        have hbot : priv.bottomObject = some x.1 := by
          rw [h.list.bottom]
          simp
        rw [List.append_nil] at h₁
        simp only [List.length_append, List.length_cons, List.length_nil] at hf
        simp only [total_append] at hlt
        obtain ⟨priv₂, hloop, h₂, hc₂⟩ := ih h₁ (by omega) (by omega)
        refine ⟨priv₂, ?_, ?_, hc₂.trans hc⟩
        · rw [freeUsedLoop, if_pos hn, hbot, hd, Exec.ok_bind, hloop]
        · rw [keepFit_concat hover, ← hc]
          exact h₂
    · have hle : total Cell.cost l ≤ priv.cacheSize.toNat - request.toNat := by
        have := mt (h.needsRoom_iff hlt).2 hn
        omega
      exact ⟨priv, by rw [freeUsedLoop, if_neg hn], by rw [keepFit_eq_self hle]; exact h, rfl⟩

theorem Holding.length_objects (h : Holding priv l) : priv.objects.length = l.length := by
  obtain ⟨cells, hp, ht⟩ := h.table
  rw [ht, List.length_map, hp.length_eq]

theorem freeUsed_spec (request : UInt32) (h : Rep priv l) (hlt : total Cell.cost l + request.toNat < 2 ^ 64) :
    ∃ priv', freeUsed priv request = .ok priv' ∧
      Rep priv' (keepFit Cell.cost (priv.cacheSize.toNat - request.toNat) l) ∧
      priv'.cacheSize = priv.cacheSize :=
  freeUsedLoop_spec h h.holding.length_objects.ge hlt

end HyScanCache.Cached
