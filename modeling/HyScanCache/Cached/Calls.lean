import HyScanCache.Cached.Write
import HyScanCache.Service

/-!
# The calls refine the service

`Abs priv s` says that the cache represents the contents `s`.  A call from such a cache ends in one that
represents what `Store.Step` says (`set_spec`, `get_spec`); only two things keep `set` from its end, an
allocator that hands out a live block and an accepted payload whose size does not fit in 32 bits.
-/

namespace HyScanCache.Cached

open Lib Recency HyScanCachedPrivate

variable {β : Type} [HyScanBuffer β]
variable {priv priv' : HyScanCachedPrivate} {l : List Cell} {s : Store} {block : Block}

/-- The cache represents the contents `s`. -/
def Abs (priv : HyScanCachedPrivate) (s : Store) : Prop :=
  ∃ l, Rep priv l ∧ s.entries = l.map Prod.snd ∧ priv.cacheSize.toNat = s.limit

section Cells

theorem find_cells (k : UInt64) (l : List Cell) :
    Recency.find Entry.key k (l.map Prod.snd) = (Recency.find Cell.key k l).map Prod.snd := find_map k

theorem erase_cells (k : UInt64) (l : List Cell) :
    erase Entry.key k (l.map Prod.snd) = (erase Cell.key k l).map Prod.snd := erase_map k

theorem total_cells (l : List Cell) : total Entry.footprint (l.map Prod.snd) = total Cell.cost l :=
  total_map _ _ _

theorem keepFit_cells (n : ℕ) (l : List Cell) :
    keepFit Entry.footprint n (l.map Prod.snd) = (keepFit Cell.cost n l).map Prod.snd := keepFit_map _ _

end Cells

theorem Abs.usedSize_eq (hA : Abs priv s) : priv.usedSize.toNat = s.used := by
  obtain ⟨l, hl, hs, -⟩ := hA
  rw [Store.used, hs, total_cells, hl.holding.used]

theorem Abs.cacheSize_eq (hA : Abs priv s) : priv.cacheSize.toNat = s.limit := by
  obtain ⟨-, -, -, hlim⟩ := hA
  exact hlim

theorem total_cost_lt (hs : s.entries = l.map Prod.snd) :
    total Cell.cost l + headerSize + 2 ^ 32 ≤ 2 ^ 38 := by
  have h1 := s.used_le
  have h2 := s.limit_le
  rw [hs, total_cells] at h1
  unfold headerSize at *
  omega

/-! ### `hyscan_cached_set` -/

/-- The cells left when the cache has made room for `size` bytes. -/
def roomFor (limit size : ℕ) (l : List Cell) : List Cell :=
  if limit < total Cell.cost l + headerSize + size then
    keepFit Cell.cost (limit - (headerSize + size) % 2 ^ 32) l
  else
    l

theorem makeRoom_entries (hs : s.entries = l.map Prod.snd) (p : Payload) :
    (s.makeRoom p).entries = (roomFor s.limit p.bytes.length l).map Prod.snd := by
  rw [Store.makeRoom, roomFor, Store.used, hs, total_cells]
  split
  · rw [Store.entries_evict, hs, keepFit_cells]
  · exact hs

theorem roomFor_isPrefix (limit size : ℕ) (l : List Cell) : roomFor limit size l <+: l := by
  rw [roomFor]
  split
  · exact keepFit_isPrefix _ _ _
  · exact List.prefix_refl l

/-- The request of `hyscan_cached_free_used` is a 32-bit value. -/
theorem toNat_request (size : UInt32) :
    (OBJECT_HEADER_SIZE + size.toUInt64).toUInt32.toNat = (headerSize + size.toNat) % 2 ^ 32 := by
  rw [UInt64.toNat_toUInt32, toNat_charge]

/-- **Room is made**, and the object of the key is looked up again. -/
theorem makeRoom_spec (h : Rep priv l) (hlt : total Cell.cost l + headerSize + 2 ^ 32 ≤ 2 ^ 38) (key : UInt64)
    (size : UInt32) :
    ∃ priv₁, makeRoom priv key ((Recency.find Cell.key key l).map Prod.fst) size =
        .ok ((Recency.find Cell.key key (roomFor priv.cacheSize.toNat size.toNat l)).map Prod.fst, priv₁) ∧
      Rep priv₁ (roomFor priv.cacheSize.toNat size.toNat l) ∧ priv₁.cacheSize = priv.cacheSize := by
  have hsize := size.toNat_lt
  have hlt' : total Cell.cost l + headerSize + size.toNat < 2 ^ 64 := by omega
  have hsum : (priv.usedSize + OBJECT_HEADER_SIZE + size.toUInt64).toNat =
      total Cell.cost l + headerSize + size.toNat := by
    rw [UInt64.add_assoc, UInt64.toNat_add, toNat_charge, h.holding.used, ← Nat.add_assoc,
      Nat.mod_eq_of_lt hlt']
  have hover : priv.usedSize + OBJECT_HEADER_SIZE + size.toUInt64 > priv.cacheSize ↔
      priv.cacheSize.toNat < total Cell.cost l + headerSize + size.toNat := by
    rw [gt_iff_lt, UInt64.lt_iff_toNat_lt, hsum]
  rw [Cached.makeRoom, roomFor]
  by_cases hn : priv.cacheSize.toNat < total Cell.cost l + headerSize + size.toNat
  · obtain ⟨priv₁, he, h₁, hc⟩ :=
      freeUsed_spec (OBJECT_HEADER_SIZE + size.toUInt64).toUInt32 h (by rw [toNat_request]; omega)
    rw [toNat_request] at h₁
    refine ⟨priv₁, ?_, by rw [if_pos hn]; exact h₁, hc⟩
    rw [if_pos (hover.2 hn), he, Exec.ok_bind, h₁.holding.lookup, if_pos hn]
    rfl
  · refine ⟨priv, ?_, by rw [if_neg hn]; exact h, rfl⟩
    rw [if_neg (mt hover.1 hn), if_neg hn]
    rfl

/-- A call of `set`. -/
def callSet (block : Block) (priv : HyScanCachedPrivate) (c : SetCall β) : Exec (Bool × HyScanCachedPrivate) :=
  set block priv c.key c.detail c.buffer1 c.buffer2

section Set

variable {c : SetCall β}

/-- The size of the call, in the source's type. -/
def callSize (c : SetCall β) : UInt32 := sumSize (givenBytes c.buffer1) (givenBytes c.buffer2)

theorem toNat_callSize (c : SetCall β) : (callSize c).toNat = c.size := by
  rw [callSize, toNat_sumSize, SetCall.size, SetCall.payload, List.length_append]

/-- The admission test of the source. -/
theorem callSize_gt : (callSize c).toUInt64 > priv.cacheSize / 10 ↔ priv.cacheSize.toNat / 10 < c.size := by
  rw [gt_iff_lt, UInt64.lt_iff_toNat_lt, UInt64.toNat_div, UInt32.toNat_toUInt64, toNat_callSize]
  rfl

theorem callSize_eq_zero : callSize c = 0 ↔ c.size = 0 := by
  rw [← UInt32.toNat_inj, toNat_callSize]
  rfl

theorem set_reject (h : priv.cacheSize.toNat / 10 < c.size) : callSet block priv c = .ok (false, priv) := by
  have ht : (callSize c).toUInt64 > priv.cacheSize / 10 := callSize_gt.2 h
  rw [callSet, set]
  exact if_pos ht

theorem set_delete (block : Block) (hr : Rep priv l) (h : c.size = 0) :
    ∃ priv', callSet block priv c = .ok (true, priv') ∧ Rep priv' (erase Cell.key c.key l) ∧
      priv'.cacheSize = priv.cacheSize := by
  have ht : ¬ (callSize c).toUInt64 > priv.cacheSize / 10 := by
    rw [callSize_gt, h]
    omega
  have h0 : callSize c = 0 := callSize_eq_zero.2 h
  have hset : callSet block priv c = (do
      let object ← priv.lookup c.key
      if object ≠ none then
        let priv ← dropObject priv object
        return (true, priv)
      else
        return (true, priv)) := by
    rw [callSet, set]
    apply (if_neg ht).trans
    congr 1
    funext object
    exact if_pos h0
  rw [hset, hr.holding.lookup, Exec.ok_bind]
  cases hf : Recency.find Cell.key c.key l with
  | none =>
    rw [erase_of_find_none hf]
    exact ⟨priv, rfl, hr, rfl⟩
  | some x =>
    obtain ⟨us, vs, rfl⟩ := List.append_of_mem (mem_of_find hf)
    have hkey : Cell.key x = c.key := key_of_find hf
    obtain ⟨priv', hd, h', hc⟩ := dropObject_spec us vs hr
    refine ⟨priv', ?_, ?_, hc⟩
    · rw [if_pos (by simp), Option.map_some, hd]
      rfl
    · rw [← hkey, erase_append_cons hr.holding.keys]
      exact h'

/-- A payload that is neither is stored where room was made for it. -/
theorem set_store (block : Block) (hr : Rep priv l) (hlt : total Cell.cost l + headerSize + 2 ^ 32 ≤ 2 ^ 38)
    (hle : c.size ≤ priv.cacheSize.toNat / 10) (h0 : c.size ≠ 0) :
    ∃ priv₁, Rep priv₁ (roomFor priv.cacheSize.toNat c.size l) ∧ priv₁.cacheSize = priv.cacheSize ∧
      callSet block priv c = (do
        let (object, priv) ← storeObject block priv₁
          ((Recency.find Cell.key c.key (roomFor priv.cacheSize.toNat c.size l)).map Prod.fst)
          c.key c.detail (givenBytes c.buffer1) (givenBytes c.buffer2)
        let priv ← placeObjectOnTopOfUsed priv object
        return (true, priv)) := by
  have ht : ¬ (callSize c).toUInt64 > priv.cacheSize / 10 := by
    rw [callSize_gt]
    omega
  obtain ⟨priv₁, hm, h₁, hc⟩ := makeRoom_spec hr hlt c.key (callSize c)
  rw [toNat_callSize] at hm h₁
  refine ⟨priv₁, h₁, hc, ?_⟩
  have hset : callSet block priv c = (do
      let object ← priv.lookup c.key
      let (object, priv) ← makeRoom priv c.key object (callSize c)
      let (object, priv) ← storeObject block priv object c.key c.detail (givenBytes c.buffer1)
        (givenBytes c.buffer2)
      let priv ← placeObjectOnTopOfUsed priv object
      return (true, priv)) := by
    rw [callSet, set]
    apply (if_neg ht).trans
    congr 1
    funext object
    exact if_neg (mt callSize_eq_zero.1 h0)
  rw [hset, hr.holding.lookup, Exec.ok_bind, hm, Exec.ok_bind]

/-- **What `hyscan_cached_set` comes to**, from a cache that represents a store. -/
theorem set_spec (block : Block) (hA : Abs priv s) (c : SetCall β) :
    (∃ status priv' s', callSet block priv c = .ok (status, priv') ∧ s.Step (.set c status) s' ∧ Abs priv' s') ∨
    (callSet block priv c = .error .overrun ∧ 2 ^ 32 ≤ c.payload.length ∧ c.size ≠ 0 ∧ c.size ≤ s.limit / 10) ∨
    (callSet block priv c = .error .allocator ∧ priv.heap block.addr ≠ none) := by
  obtain ⟨l, hr, hs, hlim⟩ := hA
  have hlt := total_cost_lt hs
  have h1 := length_givenBytes_lt c.buffer1
  have h2 := length_givenBytes_lt c.buffer2
  have hlen : c.payload.length = (givenBytes c.buffer1).length + (givenBytes c.buffer2).length :=
    List.length_append
  by_cases hrej : s.limit / 10 < c.size
  · exact .inl ⟨false, priv, s, set_reject (by rw [hlim]; exact hrej), .reject hrej, l, hr, hs, hlim⟩
  by_cases h0 : c.size = 0
  · obtain ⟨priv', he, h', hc⟩ := set_delete block hr h0
    refine .inl ⟨true, priv', s.erase c.key, he, .delete h0, _, h', ?_, by rw [hc, hlim]; rfl⟩
    rw [Store.entries_erase, hs, erase_cells]
  obtain ⟨priv₁, h₁, hc, he⟩ := set_store block hr hlt (by rw [hlim]; omega) h0
  -- a block that is not live before room is made is not live after it
  have hdead : ∀ object, ¬ Grants priv₁ object block → priv.heap block.addr ≠ none := by
    intro object hg hn
    refine hg (.inl ?_)
    by_contra hlive
    obtain ⟨x, hx, hxa⟩ := List.mem_map.1 (h₁.holding.live _ hlive)
    exact hr.holding.ne_of_dead hn ((roomFor_isPrefix _ _ _).subset hx) hxa
  have htot : total Cell.cost (roomFor priv.cacheSize.toNat c.size l) ≤ total Cell.cost l :=
    total_le_of_sublist _ (roomFor_isPrefix _ _ _).sublist
  by_cases hbig : 2 ^ 32 ≤ c.payload.length
  · rcases storeObject_overrun block c.key c.detail h₁ h1 h2
      (by omega) with ho | ⟨ho, hg⟩
    · exact .inr (.inl ⟨by rw [he, ho, Exec.error_bind], hbig, h0, by omega⟩)
    · exact .inr (.inr ⟨by rw [he, ho, Exec.error_bind], hdead _ hg⟩)
  · have hsize : c.size = c.payload.length := Nat.mod_eq_of_lt (by omega)
    let p : Payload := ⟨c.payload, by omega, by omega⟩
    rcases storeObject_spec (p := p) block c.key c.detail h₁ rfl
      (by omega) with ⟨a, priv₂, ho, h₂, hc₂⟩ | ⟨ho, hg⟩
    · obtain ⟨priv₃, hp, h₃, hc₃⟩ := h₂.placeObjectOnTopOfUsed
      have hroom : (s.makeRoom p).entries = (roomFor priv.cacheSize.toNat c.size l).map Prod.snd := by
        rw [makeRoom_entries hs, hlim, hsize]
      refine .inl ⟨true, priv₃, s.set c.key c.detail p, ?_, .put rfl (by simp only [p]; omega), _, h₃, ?_, ?_⟩
      · rw [he, ho, Exec.ok_bind]
        simp only
        rw [hp]
        rfl
      · have hk := Store.key_next (s.makeRoom p) c.key c.detail p
        rw [Store.entries_set, promote, hk, hroom, erase_cells, Store.find, hroom, find_cells, List.map_cons]
      · rw [hc₃, hc₂, hc, hlim, Store.limit_set]
    · exact .inr (.inr ⟨by rw [he, ho, Exec.error_bind], hdead _ hg⟩)

theorem callSet_false (hA : Abs priv s) (he : callSet block priv c = .ok (false, priv')) : priv' = priv := by
  rcases set_spec block hA c with ⟨status, priv₁, s', he', hs, -⟩ | ⟨he', -⟩ | ⟨he', -⟩
  · obtain ⟨rfl, rfl⟩ : status = false ∧ priv₁ = priv' := by simpa using he'.symm.trans he
    cases hs with
    | reject hrej =>
      rw [set_reject (by rw [hA.cacheSize_eq]; exact hrej)] at he
      exact (congrArg Prod.snd (Except.ok.inj he)).symm
  · rw [he'] at he
    cases he
  · rw [he'] at he
    cases he

/-! ### Only the concatenation counts -/

theorem copyData_append {object : Ptr} {data1 data2 : Bytes} (h : data1.length + data2.length < 2 ^ 32) :
    copyData priv object data1 data2 = copyData priv object (data1 ++ data2) [] := by
  cases object with
  | none => rfl
  | some a =>
    cases ho : priv.heap a with
    | none => simp [copyData, HyScanCachedPrivate.memcpy, load, ho]
    | some o =>
      rw [copyData_eq ho (by omega) (by omega), copyData_eq ho (by simpa using h) (by simp)]
      simp [written]

theorem sumSize_append (data1 data2 : Bytes) :
    guint32Size data1 + guint32Size data2 = guint32Size (data1 ++ data2) + guint32Size [] := by
  have h := toNat_sumSize data1 data2
  have h' := toNat_sumSize (data1 ++ data2) []
  rw [List.length_append, List.length_nil, Nat.add_zero, ← h] at h'
  exact (UInt32.toNat_inj.1 h').symm

theorem storeObject_append {object : Ptr} {key detail : UInt64} {data1 data2 : Bytes}
    (h : data1.length + data2.length < 2 ^ 32) :
    storeObject block priv object key detail data1 data2 =
      storeObject block priv object key detail (data1 ++ data2) [] := by
  unfold storeObject updateObject riseObject
  simp only [copyData_append h, sumSize_append data1 data2]

/-- **The call goes by its payload**, not by how it is split. -/
theorem callSet_congr {c c' : SetCall β} (hk : c.key = c'.key) (hd : c.detail = c'.detail)
    (hp : c.payload = c'.payload) (hlt : c.payload.length < 2 ^ 32) :
    callSet block priv c = callSet block priv c' := by
  have hlt' := hp ▸ hlt
  have happ : givenBytes c.buffer1 ++ givenBytes c.buffer2 = givenBytes c'.buffer1 ++ givenBytes c'.buffer2 := hp
  rw [SetCall.payload, List.length_append] at hlt hlt'
  unfold callSet set
  simp only [sumSize_append (givenBytes c.buffer1), sumSize_append (givenBytes c'.buffer1), storeObject_append hlt,
    storeObject_append hlt', happ, hk, hd]

end Set

/-! ### `hyscan_cached_get` -/

/-- A call of `get`. -/
def callGet (priv : HyScanCachedPrivate) (c : GetCall β) : Exec (Bool × Buffers β × HyScanCachedPrivate) :=
  get priv c.key c.detail c.size1 c.bufs c.buffer1 c.buffer2

/-- The call finds an object: its buffers are not refused, and the search ends in an object. -/
def Found (priv : HyScanCachedPrivate) (c : GetCall β) : Prop :=
  ¬ c.Refused ∧ ∃ a, getObject priv c.key c.detail = .ok (some a)

section Get

variable {c : GetCall β} {a : Addr} {o : ObjectInfo} {e : Entry} {bufs : Buffers β} {buffer : BufferPtr}
variable {size1 : UInt32}

omit [HyScanBuffer β] in
/-- **The search** finds the block of the entry of the key, if its detail is the one asked for. -/
theorem getObject_spec (hr : Rep priv l) (c : GetCall β) :
    getObject priv c.key c.detail = .ok ((Recency.find Cell.key c.key l).bind fun x =>
      if c.Accepts x.2.detail then some x.1 else none) := by
  rw [getObject, hr.holding.lookup, Exec.ok_bind]
  cases hf : Recency.find Cell.key c.key l with
  | none => rfl
  | some x =>
    obtain ⟨o, ho, hh⟩ := hr.holding.object x (mem_of_find hf)
    rw [Option.map_some, if_neg (by simp), load_live ho, Exec.ok_bind, Option.bind_some, hh.detail]
    by_cases hd : c.Accepts x.2.detail
    · rw [if_pos hd, if_neg fun h => hd.elim h.1 h.2]
      rfl
    · rw [if_neg hd, if_pos (not_or.1 hd)]
      rfl

omit [HyScanBuffer β] in
theorem getObject_none (hr : Rep priv l)
    (h : ¬ ∃ x, Recency.find Cell.key c.key l = some x ∧ c.Accepts x.2.detail) :
    getObject priv c.key c.detail = .ok none := by
  rw [getObject_spec hr c]
  cases hf : Recency.find Cell.key c.key l with
  | none => rfl
  | some x => rw [Option.bind_some, if_neg fun hd => h ⟨x, hf, hd⟩]

theorem guint32Size_of_length {data : Bytes} {size : UInt32} (h : data.length = size.toNat) :
    guint32Size data = size := by
  rw [guint32Size, h, UInt32.ofNat_toNat]

theorem copyPart_eq {size : UInt32} {src : Bytes} (h : size.toNat ≤ src.length) :
    copyPart bufs buffer size src =
      .ok ((deliverPart bufs buffer (src.take size.toNat)).map fun bufs => (size, bufs)) := by
  have hpart : guint32Size (src.take size.toNat) = size :=
    guint32Size_of_length (by rw [List.length_take, Nat.min_eq_left h])
  cases buffer with
  | none => rfl
  | some b =>
    unfold copyPart deliverPart
    simp only [hpart]
    cases hset : setDataSize (bufs b) size with
    | none => rfl
    | some buf =>
      have hsize : guint32Size (bytes buf) = size :=
        guint32Size_of_length (HyScanBuffer.length_setDataSize _ _ _ hset)
      simp only [hsize, if_pos h]
      rfl

theorem copyFirst_eq (ho : priv.heap a = some o) (hh : Holds o e) :
    copyFirst priv (some a) size1 bufs buffer =
      .ok ((deliverPart bufs buffer (e.bytes.take size1.toNat)).map fun bufs => (min size1 o.size, bufs)) := by
  have hmin : (min size1 o.size).toNat = min size1.toNat e.bytes.length := by
    rw [UInt32.toNat_min, hh.size]
  have hfits := e.fits
  rw [copyFirst, load_live ho, Exec.ok_bind, copyPart_eq (by rw [hmin, hh.length]; omega), hmin]
  congr 3
  conv_rhs => rw [← hh.take, List.take_take]

theorem copySecond_eq (ho : priv.heap a = some o) (hh : Holds o e) :
    copySecond priv (some a) (min size1 o.size) bufs buffer =
      .ok ((deliverPart bufs buffer (e.bytes.drop size1.toNat)).map
        fun bufs => (o.size - min size1 o.size, bufs)) := by
  have hmin : (min size1 o.size).toNat = min size1.toNat e.bytes.length := by
    rw [UInt32.toNat_min, hh.size]
  have hsub : (o.size - min size1 o.size).toNat = e.bytes.length - min size1.toNat e.bytes.length := by
    rw [UInt32.toNat_sub_of_le _ _ (by rw [UInt32.le_iff_toNat_le, hmin, hh.size]; omega), hmin, hh.size]
  have hfits := e.fits
  rw [copySecond, load_live ho, Exec.ok_bind,
    copyPart_eq (by rw [hsub, hmin, List.length_drop, hh.length]; omega), hsub, hmin]
  congr 3
  conv_rhs => rw [← hh.take]
  rw [List.take_drop, List.drop_take]
  by_cases hle : size1.toNat ≤ e.bytes.length
  · rw [Nat.min_eq_left hle, Nat.add_sub_cancel' hle, List.drop_take]
  · rw [Nat.min_eq_right (by omega), List.drop_take]
    simp
    omega

/-- The cache after a hit: the object is on top, its data is delivered. -/
theorem get_hit {us vs : List Cell} {x : Cell} (hr : Rep priv (us ++ x :: vs)) (hcr : ¬ c.Refused)
    (hk : x.2.key = c.key) (hd : c.Accepts x.2.detail) :
    ∃ priv', placeObjectOnTopOfUsed priv (some x.1) = .ok priv' ∧
      callGet priv c = .ok ((deliver c.bufs c.buffer1 c.buffer2 c.size1.toNat x.2.bytes).1,
        (deliver c.bufs c.buffer1 c.buffer2 c.size1.toNat x.2.bytes).2, priv') ∧
      Rep priv' (x :: (us ++ vs)) ∧ LinksOnly priv priv' := by
  have hf : Recency.find Cell.key c.key (us ++ x :: vs) = some x :=
    (find_eq_some hr.holding.keys).2 ⟨by simp, hk⟩
  have hg := getObject_spec hr c
  rw [hf, Option.bind_some, if_pos hd] at hg
  have hl := hr.list
  rw [List.map_append, List.map_cons] at hl
  obtain ⟨priv₁, hp, hl₁, hlo⟩ := placeObjectOnTopOfUsed_mem hl
  have h₁ := hlo.holding (hr.holding.perm (perm_front us vs x))
  obtain ⟨o, ho, hh⟩ := h₁.object x (by simp)
  refine ⟨priv₁, hp, ?_, ⟨h₁, by rw [List.map_cons, List.map_append]; exact hl₁⟩, hlo⟩
  rw [callGet, get]
  apply (if_neg hcr).trans
  rw [hg, Exec.ok_bind, if_neg (by simp), hp, Exec.ok_bind, copyFirst_eq ho hh, Exec.ok_bind, deliver]
  cases deliverPart c.bufs c.buffer1 (x.2.bytes.take c.size1.toNat) with
  | none => rfl
  | some bufs =>
    simp only [Option.map_some]
    rw [copySecond_eq ho hh, Exec.ok_bind]
    cases deliverPart bufs c.buffer2 (x.2.bytes.drop c.size1.toNat) <;> rfl

theorem get_refuse (h : c.Refused) : callGet priv c = .ok (false, c.bufs, priv) := by
  rw [callGet, get]
  exact if_pos h

theorem get_miss (hcr : ¬ c.Refused) (h : getObject priv c.key c.detail = .ok none) :
    callGet priv c = .ok (false, c.bufs, priv) := by
  rw [callGet, get]
  apply (if_neg hcr).trans
  rw [h, Exec.ok_bind, if_pos rfl]
  rfl

/-- **What `hyscan_cached_get` comes to**, from a cache that represents a store. -/
theorem get_spec (hA : Abs priv s) (c : GetCall β) :
    ∃ found status bufs priv' s', callGet priv c = .ok (status, bufs, priv') ∧ (found = true ↔ Found priv c) ∧
      s.Step (.get c found status bufs) s' ∧ Abs priv' s' := by
  obtain ⟨l, hr, hs, hlim⟩ := hA
  by_cases hcr : c.Refused
  · refine ⟨false, false, c.bufs, priv, s, get_refuse hcr, ?_, .refuse hcr, l, hr, hs, hlim⟩
    simp [Found, hcr]
  have hg := getObject_spec hr c
  have hfind : s.find c.key = (Recency.find Cell.key c.key l).map Prod.snd := by
    rw [Store.find, hs, find_cells]
  by_cases hhit : ∃ x, Recency.find Cell.key c.key l = some x ∧ c.Accepts x.2.detail
  · obtain ⟨x, hf, hd⟩ := hhit
    have hk : Cell.key x = c.key := key_of_find hf
    rw [hf, Option.bind_some, if_pos hd] at hg
    rw [hf, Option.map_some] at hfind
    obtain ⟨us, vs, rfl⟩ := List.append_of_mem (mem_of_find hf)
    obtain ⟨priv', -, he, h', hlo⟩ := get_hit hr hcr hk hd
    refine ⟨true, _, _, priv', s.touch c.key, he, by simp [Found, hcr, hg], .hit hcr hfind hd rfl,
      x :: (us ++ vs), h', ?_, by rw [hlo.cacheSize, hlim, Store.limit_touch]⟩
    rw [Store.entries_touch s c.key x.2 hfind, promote, hs, erase_cells, List.map_cons,
      show x.2.key = x.key from rfl, erase_append_cons hr.holding.keys]
  · -- no entry, or one of another detail
    have hnone := getObject_none hr hhit
    refine ⟨false, false, c.bufs, priv, s, get_miss hcr hnone, by simp [Found, hnone], .miss hcr ?_, l, hr, hs,
      hlim⟩
    intro e he hd
    rw [hfind] at he
    obtain ⟨x, hf, rfl⟩ := Option.map_eq_some_iff.1 he
    exact hhit ⟨x, hf, hd⟩

end Get

end HyScanCache.Cached
