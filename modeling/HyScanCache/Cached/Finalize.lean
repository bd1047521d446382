import HyScanCache.Cached.Linearizable

/-!
# The end of a cache

`hyscan_cached_object_finalize` destroys the table.  A block that is freed twice, or was never allocated, is a fault;
a block that is still live afterwards is lost.
-/

namespace HyScanCache.Cached

open Lib Recency HyScanCachedPrivate

variable {β : Type} [HyScanBuffer β]
variable {priv priv' : HyScanCachedPrivate} {l : List Cell}

/-- `g_hash_table_unref`, of the last reference: the values are destroyed with `g_free`. -/
def destroyValues : List Slot → HyScanCachedPrivate → Exec HyScanCachedPrivate
  | [], priv => return priv
  | slot :: slots, priv => do
    let priv ← priv.free slot.value
    destroyValues slots priv

/-- `hyscan_cached_object_finalize` -/
def objectFinalize (priv : HyScanCachedPrivate) : Exec HyScanCachedPrivate :=
  destroyValues priv.objects { priv with objects := [] }

theorem destroyValues_cells (hnd : (l.map Prod.fst).Nodup) (hlive : ∀ x ∈ l, priv.heap x.1 ≠ none) :
    ∃ priv', destroyValues (l.map Cell.slot) priv = .ok priv' ∧ (∀ x ∈ l, priv'.heap x.1 = none) ∧
      ∀ a, a ∉ l.map Prod.fst → priv'.heap a = priv.heap a := by
  induction l generalizing priv with
  | nil => exact ⟨priv, rfl, nofun, fun a _ => rfl⟩
  | cons x l ih =>
    obtain ⟨hx, hnd⟩ := List.nodup_cons.1 hnd
    obtain ⟨o, ho⟩ := Option.ne_none_iff_exists'.1 (hlive x (List.mem_cons_self ..))
    obtain ⟨priv₁, hfree, hheap⟩ : ∃ priv₁, priv.free (some x.1) = .ok priv₁ ∧
        priv₁.heap = Function.update priv.heap x.1 none := ⟨_, free_live ho, rfl⟩
    have hlive₁ : ∀ y ∈ l, priv₁.heap y.1 ≠ none := fun y hy => by
      have hne : y.1 ≠ x.1 := fun he => hx (he ▸ List.mem_map_of_mem hy)
      rw [hheap, Function.update_of_ne hne]
      exact hlive y (List.mem_cons_of_mem _ hy)
    obtain ⟨priv', hd, hdead, hrest⟩ := ih hnd hlive₁
    refine ⟨priv', ?_, fun y hy => ?_, fun a ha => ?_⟩
    · rw [List.map_cons, destroyValues, Cell.slot, hfree]
      exact hd
    · rcases List.mem_cons.1 hy with rfl | hy
      · rw [hrest y.1 hx, hheap, Function.update_self]
      · exact hdead y hy
    · simp only [List.map_cons, List.mem_cons, not_or] at ha
      rw [hrest a ha.2, hheap, Function.update_of_ne ha.1]

/-- **Nothing is left of a cache**: no block is freed twice, and none stays live. -/
theorem Holding.finalize (h : Holding priv l) :
    ∃ priv', objectFinalize priv = .ok priv' ∧ ∀ a, priv'.heap a = none := by
  obtain ⟨cells, hp, ht⟩ := h.table
  have hnd : (cells.map Prod.fst).Nodup := (hp.map Prod.fst).nodup_iff.2 h.addrs
  have hlive : ∀ x ∈ cells, ({ priv with objects := [] } : HyScanCachedPrivate).heap x.1 ≠ none := fun x hx => by
    obtain ⟨o, ho, -⟩ := h.object x (hp.mem_iff.1 hx)
    simp [ho]
  obtain ⟨priv', hd, hdead, hrest⟩ := destroyValues_cells hnd hlive
  refine ⟨priv', by rw [objectFinalize, ht, hd], fun a => ?_⟩
  by_cases ha : a ∈ cells.map Prod.fst
  · obtain ⟨x, hx, rfl⟩ := List.mem_map.1 ha
    exact hdead x hx
  · rw [hrest a ha]
    by_contra hne
    exact ha ((hp.map Prod.fst).mem_iff.2 (h.live a hne))

/-- **The end of a cache that threads have used.**  When no call is under way, no lock is held, and finalizing the
cache frees the blocks it has allocated, each of them once. -/
theorem finalize_frees {w : World β} (hr : ((threads β).guard Fits).Reachable w)
    (hidle : ∀ i c p, w.thread i ≠ .running c p) :
    (∀ i l, w.held i l = none) ∧ ∃ priv', objectFinalize w.mem = .ok priv' ∧ ∀ a, priv'.heap a = none := by
  obtain ⟨h, hr⟩ := hr
  obtain ⟨priv, lin, hl⟩ := Run.consistent hr
  obtain ⟨hnone, hmem⟩ := hl.rests hidle
  obtain ⟨s, -, l, hrep, -⟩ := Run.abs hl.run
  rw [hmem]
  exact ⟨fun i l => by rw [hnone i]; rfl, hrep.holding.finalize⟩

/-- A cache that three threads have used is finalized. -/
theorem finalize_frees_sample : ∃ h w, ((threads PlainBuffer).guard Fits).Run h w ∧
    ∃ priv', objectFinalize w.mem = .ok priv' ∧ ∀ a, priv'.heap a = none := by
  obtain ⟨h, w, bufs, hr, hidle, -⟩ := sample_threads
  exact ⟨h, w, hr, (finalize_frees ⟨h, hr⟩ hidle).2⟩

end HyScanCache.Cached
