import HyScanCache.Service

/-!
# Histories of a service

What the history of a run says about the entries it leaves.  Histories have the newest event first.

* `Step.shape`: a call either puts the entry it touches on top of entries that were there before, in the order
  they were in, or only takes entries out;
* `run_written`: an entry holds the payload and the detail of the newest accepted `set` of its key;
* `run_recent`: the entries stand in the order in which they were last touched;
* `Step.mem_of_leavesRoom`: an entry is kept while what is stored fits beside it and what was touched later.
-/

namespace HyScanCache

open Lib Recency

variable {β : Type} [HyScanBuffer β]
variable {s s' : Store} {ev : Event β} {h : List (Event β)} {e : Entry}

/-! ### One call -/

theorem Store.mem_of_mem_makeRoom {p : Payload} (he : e ∈ (s.makeRoom p).entries) : e ∈ s.entries :=
  (s.makeRoom_isPrefix p).subset he

/-- **What a call does to the list of entries.** -/
theorem Store.Step.shape (ht : s.Step ev s') :
    (∃ x rest, s'.entries = x :: rest ∧ ev.touched = some x.key ∧ rest.Sublist s.entries ∧
      ∀ a ∈ rest, a.key ≠ x.key) ∨
    (s'.entries.Sublist s.entries ∧ ∀ a ∈ s'.entries, ev.touched ≠ some a.key) := by
  cases ht with
  | reject h => exact .inr ⟨List.Sublist.refl _, fun _ _ => by simp [Event.touched]⟩
  | delete h =>
    refine .inr ⟨erase_sublist, ?_⟩
    intro a ha
    have hne := (mem_erase.1 ha).2
    rw [Event.touched]
    split
    · simp
    · exact fun e => hne (Option.some.inj e).symm
  | @put c p hp h =>
    have hk := Store.key_next (s.makeRoom p) c.key c.detail p
    refine .inl ⟨_, _, Store.entries_set s c.key c.detail p, ?_, ?_, fun a ha => (mem_erase.1 ha).2⟩
    · have hne : c.payload ≠ [] := by
        rw [← hp]
        exact List.ne_nil_of_length_pos p.pos
      rw [Event.touched, if_neg hne, hk]
    · exact erase_sublist.trans (s.makeRoom_isPrefix p).sublist
  | refuse h => exact .inr ⟨List.Sublist.refl _, fun _ _ => by simp [Event.touched]⟩
  | miss hr h => exact .inr ⟨List.Sublist.refl _, fun _ _ => by simp [Event.touched]⟩
  | @hit c e hr hf hd status bufs h =>
    refine .inl ⟨e, _, Store.entries_touch s c.key e hf, ?_, erase_sublist, fun a ha => (mem_erase.1 ha).2⟩
    rw [Event.touched, key_of_find hf]

/-- **What a call does to the entries**: it stores the payload it was given, or keeps entries as they were; a
key that was set or deleted has no other entry. -/
theorem Store.Step.mem (ht : s.Step ev s') (he : e ∈ s'.entries) :
    (∃ c, ev = .set c true ∧ c.key = e.key ∧ c.detail = e.detail ∧ c.payload = e.bytes) ∨
    (e ∈ s.entries ∧ ev.sets e.key = false) := by
  cases ht with
  | reject h => exact .inr ⟨he, rfl⟩
  | @delete c h =>
    obtain ⟨hm, hne⟩ := mem_erase.1 he
    refine .inr ⟨hm, ?_⟩
    simpa [Event.sets] using fun e => hne e.symm
  | @put c p hp h =>
    have hk := Store.key_next (s.makeRoom p) c.key c.detail p
    rcases mem_promote.1 he with rfl | ⟨hm, hne⟩
    · exact .inl ⟨c, rfl, hk.symm, (Entry.detail_next _ _ _ _).symm, by rw [Entry.bytes_next, hp]⟩
    · refine .inr ⟨Store.mem_of_mem_makeRoom hm, ?_⟩
      rw [hk] at hne
      simpa [Event.sets] using fun e => hne e.symm
  | refuse h => exact .inr ⟨he, rfl⟩
  | miss hr h => exact .inr ⟨he, rfl⟩
  | @hit c e' hr hf hd status bufs h =>
    rw [Store.entries_touch s c.key e' hf, mem_promote] at he
    rcases he with rfl | ⟨hm, -⟩
    · exact .inr ⟨mem_of_find hf, rfl⟩
    · exact .inr ⟨hm, rfl⟩

/-! ### The payload stored last -/

/-- The newest accepted `set` of the key of `e` was given what `e` holds. -/
def Written (h : List (Event β)) (e : Entry) : Prop :=
  ∃ c, h.find? (Event.sets e.key) = some (.set c true) ∧ c.detail = e.detail ∧ c.payload = e.bytes

theorem Store.Step.written (ht : s.Step ev s') (hw : ∀ a ∈ s.entries, Written h a) (he : e ∈ s'.entries) :
    Written (ev :: h) e := by
  rcases ht.mem he with ⟨c, rfl, hk, hd, hp⟩ | ⟨hm, hn⟩
  · exact ⟨c, by simp [Event.sets, hk], hd, hp⟩
  · obtain ⟨c, hf, hc⟩ := hw e hm
    exact ⟨c, by rw [List.find?_cons_of_neg (by simp [hn])]; exact hf, hc⟩

/-- **Every entry is what the newest accepted `set` of its key was given.** -/
theorem run_written (hr : (service β).Run h s) (he : e ∈ s.entries) : Written h e := by
  refine Lts.Run.inv (P := fun h s => ∀ e ∈ s.entries, Written h e) ?_ ?_ hr e he
  · intro s hs e he
    rw [show s.entries = [] from hs] at he
    cases he
  · intro h s ev s' _ ih ht e he
    exact Store.Step.written ht ih he

/-! ### The order of use -/

/-- When the key was touched last, counted from the start of the run; zero if it never was. -/
def lastTouch (k : UInt64) : List (Event β) → ℕ
  | [] => 0
  | ev :: h => if ev.touched = some k then h.length + 1 else lastTouch k h

theorem lastTouch_cons_of_ne {k : UInt64} (hk : ev.touched ≠ some k) :
    lastTouch k (ev :: h) = lastTouch k h := if_neg hk

theorem lastTouch_cons_self {k : UInt64} (hk : ev.touched = some k) :
    lastTouch k (ev :: h) = h.length + 1 := if_pos hk

theorem lastTouch_le (k : UInt64) (h : List (Event β)) : lastTouch k h ≤ h.length := by
  induction h with
  | nil => exact le_rfl
  | cons ev h ih =>
    rw [lastTouch, List.length_cons]
    split <;> omega

/-- Every entry was touched, and each one later than those below it. -/
structure Recent (h : List (Event β)) (l : List Entry) : Prop where
  touched : ∀ a ∈ l, 0 < lastTouch a.key h
  sorted : l.Pairwise fun a b => lastTouch b.key h < lastTouch a.key h

theorem Recent.sublist {l l' : List Entry} (hl : Recent h l) (hs : l'.Sublist l) : Recent h l' :=
  ⟨fun a ha => hl.touched a (hs.subset ha), hl.sorted.sublist hs⟩

theorem Recent.cons {l : List Entry} (hl : Recent h l) (hne : ∀ a ∈ l, ev.touched ≠ some a.key) :
    Recent (ev :: h) l where
  touched a ha := by
    rw [lastTouch_cons_of_ne (hne a ha)]
    exact hl.touched a ha
  sorted := by
    refine hl.sorted.imp_of_mem fun ha hb hab => ?_
    rw [lastTouch_cons_of_ne (hne _ ha), lastTouch_cons_of_ne (hne _ hb)]
    exact hab

theorem Store.Step.recent (ht : s.Step ev s') (hr : Recent h s.entries) : Recent (ev :: h) s'.entries := by
  rcases ht.shape with ⟨x, rest, he, hx, hs, hne⟩ | ⟨hs, hne⟩
  · rw [he]
    have hrest : Recent (ev :: h) rest := by
      refine (hr.sublist hs).cons fun a ha e => hne a ha ?_
      exact Option.some.inj (e.symm.trans hx)
    have hxt := lastTouch_cons_self (h := h) hx
    refine ⟨?_, List.pairwise_cons.2 ⟨?_, hrest.sorted⟩⟩
    · intro a ha
      rcases List.mem_cons.1 ha with rfl | ha
      · omega
      · exact hrest.touched a ha
    · intro a ha
      have hat : lastTouch a.key (ev :: h) = lastTouch a.key h :=
        lastTouch_cons_of_ne fun e => hne a ha (Option.some.inj (e.symm.trans hx))
      have := lastTouch_le a.key h
      omega
  · exact (hr.sublist hs).cons hne

/-- **The entries stand in the order of their last touches**, the latest first. -/
theorem run_recent (hr : (service β).Run h s) : Recent h s.entries := by
  refine Lts.Run.inv (P := fun h s => Recent h s.entries) ?_ ?_ hr
  · intro s hs
    rw [show s.entries = [] from hs]
    exact ⟨by simp, List.Pairwise.nil⟩
  · intro h s ev s' _ ih ht
    exact Store.Step.recent ht ih

/-! ### What is kept -/

/-- A prefix that leaves room for the payload is kept, but for an entry of the key. -/
theorem Store.mem_set_of_isPrefix {us vs : List Entry} {k detail : UInt64} {p : Payload}
    (hs : s.entries = us ++ e :: vs) (hk : k ≠ e.key)
    (hroom : total Entry.footprint (us ++ [e]) + headerSize + p.bytes.length ≤ s.limit) :
    e ∈ (s.set k detail p).entries := by
  have hpre : us ++ [e] <+: s.entries := by
    rw [hs]
    exact ⟨vs, by simp⟩
  have hmem : e ∈ (s.makeRoom p).entries := by
    rw [Store.makeRoom]
    split
    · -- the request is at most what the payload needs
      have hmod := Nat.mod_le (headerSize + p.bytes.length) (2 ^ 32)
      have hkeep : us ++ [e] <+: keepFit Entry.footprint (s.limit - (headerSize + p.bytes.length) % 2 ^ 32)
          s.entries := prefix_keepFit hpre (by omega)
      exact hkeep.subset (by simp)
    · exact hpre.subset (by simp)
  rw [Store.entries_set, mem_promote, Store.key_next]
  exact .inr ⟨hmem, fun h => hk h.symm⟩

/-- The call leaves room for `e`: it neither sets nor deletes it, and a payload it stores fits beside `e` and
the entries touched after it. -/
def LeavesRoom (e : Entry) (h : List (Event β)) (s : Store) : Event β → Prop
  | .set c true => c.key ≠ e.key ∧ (c.payload ≠ [] →
      e.footprint + total Entry.footprint (s.entries.filter fun a => lastTouch e.key h < lastTouch a.key h) +
        headerSize + c.payload.length ≤ s.limit)
  | _ => True

theorem Recent.total_le {us vs : List Entry} (hl : Recent h (us ++ e :: vs)) :
    total Entry.footprint us ≤
      total Entry.footprint ((us ++ e :: vs).filter fun a => lastTouch e.key h < lastTouch a.key h) := by
  apply total_le_of_sublist _
  rw [List.filter_append]
  have hus : us.filter (fun a => lastTouch e.key h < lastTouch a.key h) = us := by
    apply List.filter_eq_self.2
    intro a ha
    simpa using (List.pairwise_append.1 hl.sorted).2.2 a ha e (by simp)
  rw [hus]
  exact List.sublist_append_left _ _

/-- **An entry stays as it is while calls leave room for it.** -/
theorem Store.Step.mem_of_leavesRoom (ht : s.Step ev s') (hl : Recent h s.entries) (he : e ∈ s.entries)
    (hroom : LeavesRoom e h s ev) : e ∈ s'.entries := by
  cases ht with
  | reject h => exact he
  | delete h => exact mem_erase.2 ⟨he, fun hk => hroom.1 hk.symm⟩
  | @put c p hp hle =>
    obtain ⟨us, vs, hs⟩ := List.append_of_mem he
    have hne : c.payload ≠ [] := by
      rw [← hp]
      exact List.ne_nil_of_length_pos p.pos
    have hfit := hroom.2 hne
    have habove := Recent.total_le (hs ▸ hl)
    rw [← hs] at habove
    apply Store.mem_set_of_isPrefix hs hroom.1
    rw [total_append, total_cons, total_nil, hp]
    omega
  | refuse h => exact he
  | miss hr h => exact he
  | @hit c e' hr hf hd status bufs h =>
    rw [Store.entries_touch s c.key e' hf, mem_promote]
    by_cases hk : e.key = e'.key
    · exact .inl (s.distinct.eq he (mem_of_find hf) hk)
    · exact .inr ⟨he, hk⟩

end HyScanCache
