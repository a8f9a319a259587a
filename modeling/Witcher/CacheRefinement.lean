import Witcher.CacheLoops

/-! The replay cache implements line persistency. The relation below ties a cache to the abstract
memory reached by the same operations: each line holds exactly its pending stores, the `flushed`
fields say which part of the line a store is in, and each byte of the file comes from the persisted
stores of its own line. Every operation of the cache succeeds on related states and keeps the
relation. -/

namespace Witcher

open Bytes Persistency

/-- `hist` is every store accepted so far, in program order; `f₀` is the file at the start. -/
structure Refines (f₀ : BinaryFile) (hist : List Store) (m : Memory Nat Store) (c : WitcherCache) : Prop where
  stores : ∀ a, (m a).stores = hist.filter (fun st => st.line = a)
  nodup : (hist.map (·.id)).Nodup
  inLine : ∀ st ∈ hist, st.InLine
  mapped : ∀ st ∈ hist, st.Mapped f₀.mapBase f₀.fileMap.length
  line : ∀ a l, c.cachelineDict.get? a = some l → l = ⟨a, cachelineBytes, (m a).pending⟩
  absent : ∀ a, c.cachelineDict.get? a = none → (m a).pending = []
  persisted : ∀ a, ∀ st ∈ (m a).persisted, c.heap.flushed st.id = .fenced
  flushing : ∀ a, ∀ st ∈ (m a).flushing, c.heap.flushed st.id = .flushing
  clear : ∀ a, ∀ st ∈ (m a).clear, c.heap.flushed st.id = .clear
  fresh : ∀ i, (∀ st ∈ hist, st.id ≠ i) → c.heap.flushed i = .clear
  mapBase : c.heap.binaryFile.mapBase = f₀.mapBase
  length : c.heap.binaryFile.fileMap.length = f₀.fileMap.length
  file : ∀ i : Nat, c.heap.binaryFile.fileMap[i]? =
    (lastWrite ((m ((f₀.mapBase + i) / 64 * 64)).persisted.map (Store.write f₀.mapBase)) i).or f₀.fileMap[i]?
  written : ∀ i, i ∈ c.heap.binaryFile.written ↔ i ∈ f₀.written ∨ ∃ a, ∃ st ∈ (m a).persisted, st.id = i

/-- The line of the store can take it. -/
theorem Store.InLine.canAccept {st : Store} (h : st.InLine) (stores : List Store) :
    WitcherCacheline.canAcceptStoreOp ⟨st.line, cachelineBytes, stores⟩ st = true := by
  have := h.high
  simp only [WitcherCacheline.canAcceptStoreOp, cachelineBytes, h.line_eq, Bool.and_eq_true, decide_eq_true_eq]
  omega

theorem Refines.new (f₀ : BinaryFile) : Refines f₀ [] Memory.empty (WitcherCache.new f₀) where
  stores a := rfl
  nodup := List.nodup_nil
  inLine := by simp
  mapped := by simp
  line a l h := by cases h
  absent a _ := rfl
  persisted a st h := by cases h
  flushing a st h := by cases h
  clear a st h := by cases h
  fresh i _ := rfl
  mapBase := rfl
  length := rfl
  file i := rfl
  written i := by simp [WitcherCache.new, Memory.empty]

namespace Refines

variable {f₀ : BinaryFile} {hist : List Store} {m : Memory Nat Store} {c : WitcherCache}

/-! ### Consequences -/

theorem mem_stores (h : Refines f₀ hist m c) {a : Nat} {st : Store} :
    st ∈ (m a).stores ↔ st ∈ hist ∧ st.line = a := by
  rw [h.stores a, List.mem_filter, decide_eq_true_eq]

theorem pending_hist (h : Refines f₀ hist m c) {a : Nat} {st : Store} (hst : st ∈ (m a).pending) :
    st ∈ hist ∧ st.line = a :=
  h.mem_stores.mp (List.mem_append_right _ hst)

theorem flushing_pending {a : Nat} {st : Store} (hst : st ∈ (m a).flushing) : st ∈ (m a).pending :=
  List.mem_append_left _ hst

theorem clear_pending {a : Nat} {st : Store} (hst : st ∈ (m a).clear) : st ∈ (m a).pending :=
  List.mem_append_right _ hst

/-- Objects are told apart by their ids. -/
theorem eq_of_id (h : Refines f₀ hist m c) {st st' : Store} (hst : st ∈ hist) (hst' : st' ∈ hist)
    (hid : st.id = st'.id) : st = st' :=
  List.inj_on_of_nodup_map h.nodup hst hst' hid

theorem stores_nodup (h : Refines f₀ hist m c) (a : Nat) : ((m a).stores.map (·.id)).Nodup := by
  rw [h.stores a]
  exact h.nodup.sublist (List.filter_sublist.map _)

theorem pending_nodup (h : Refines f₀ hist m c) (a : Nat) : ((m a).pending.map (·.id)).Nodup :=
  (h.stores_nodup a).sublist ((List.sublist_append_right _ _).map _)

theorem maps (h : Refines f₀ hist m c) {l : List Store} (hl : ∀ st ∈ l, st ∈ hist) : c.heap.Maps l := by
  intro st hst
  rw [h.mapBase, h.length]
  exact h.mapped st (hl st hst)

/-- Pending stores of different lines are different objects. -/
theorem pending_ids_ne (h : Refines f₀ hist m c) {a b : Nat} (hab : a ≠ b) {st st' : Store}
    (hst : st ∈ (m a).pending) (hst' : st' ∈ (m b).pending) : st.id ≠ st'.id := by
  intro hid
  obtain ⟨hmem, hline⟩ := h.pending_hist hst
  obtain ⟨hmem', hline'⟩ := h.pending_hist hst'
  have heq := h.eq_of_id hmem hmem' hid
  exact hab (by rw [← hline, ← hline', heq])

theorem pending_eq (h : Refines f₀ hist m c) (a : Nat) : c.pending a = (m a).pending := by
  cases hget : c.cachelineDict.get? a with
  | none => simp only [WitcherCache.pending, hget, h.absent a hget]
  | some l => simp only [WitcherCache.pending, hget, h.line a l hget]

theorem pending_not_fenced (h : Refines f₀ hist m c) {a : Nat} {st : Store} (hst : st ∈ (m a).pending) :
    c.heap.flushed st.id ≠ .fenced := by
  rcases List.mem_append.mp hst with hst | hst
  · rw [h.flushing a st hst]
    decide
  · rw [h.clear a st hst]
    decide

/-- A store is fenced exactly when it is in the persisted part of its line. -/
theorem fenced_iff (h : Refines f₀ hist m c) {st : Store} (hst : st ∈ hist) :
    c.heap.flushed st.id = .fenced ↔ st ∈ (m st.line).persisted := by
  refine ⟨fun hfenced => ?_, h.persisted _ st⟩
  have hmem : st ∈ (m st.line).stores := h.mem_stores.mpr ⟨hst, rfl⟩
  rcases List.mem_append.mp hmem with hmem | hmem
  · exact hmem
  · exact absurd hfenced (h.pending_not_fenced hmem)

/-- A byte outside a store's line is not written by it. -/
theorem read_eq_none (h : Refines f₀ hist m c) {st : Store} (hst : st ∈ hist) {i : Nat}
    (hline : st.line ≠ (f₀.mapBase + i) / 64 * 64) : (st.write f₀.mapBase).read i = none := by
  apply Write.read_of_not_covered
  rintro ⟨hlow, hhigh⟩
  have hmap := h.mapped st hst
  have := hmap.low
  have := hmap.bytes
  simp only [Store.write] at hlow hhigh
  exact hline ((h.inLine st hst).byte_line (b := f₀.mapBase + i) (by omega) (by omega)).symm

/-! ### Looking up a line -/

/-- The dictionary and the line that `get_cacheline_from_address` gives. -/
theorem getCacheline (h : Refines f₀ hist m c) (address : Nat) :
    ∃ d, c.getCachelineFromAddress address =
        (d, ⟨getCachelineAddress address, cachelineBytes, (m (getCachelineAddress address)).pending⟩) ∧
      Refines f₀ hist m { c with cachelineDict := d } ∧
      d.get? (getCachelineAddress address) =
        some ⟨getCachelineAddress address, cachelineBytes, (m (getCachelineAddress address)).pending⟩ := by
  cases hget : c.cachelineDict.get? (getCachelineAddress address) with
  | some l =>
      have hl := h.line _ l hget
      refine ⟨c.cachelineDict, ?_, h, ?_⟩
      · simp only [WitcherCache.getCachelineFromAddress, hget, hl]
      · rw [hget, hl]
  | none =>
      have hempty := h.absent _ hget
      refine ⟨c.cachelineDict.set (getCachelineAddress address)
        ⟨getCachelineAddress address, cachelineBytes, []⟩, ?_, ?_, ?_⟩
      · simp only [WitcherCache.getCachelineFromAddress, hget, hempty]
      · refine { h with line := ?_, absent := ?_ }
        · intro a l hl
          rw [Dict.get?_set] at hl
          split_ifs at hl with ha
          · cases hl
            rw [ha, hempty]
          · exact h.line a l hl
        · intro a ha
          rw [Dict.get?_set] at ha
          split_ifs at ha with hne
          exact h.absent a ha
      · rw [Dict.get?_set, if_pos rfl, hempty]

/-! ### One step -/

/-- Accepting a store: the assertion on the line holds and the store goes to its end. -/
theorem acceptStore (h : Refines f₀ hist m c) (st : Store) (hinLine : st.InLine)
    (hmapped : st.Mapped f₀.mapBase f₀.fileMap.length) (hfresh : ∀ s ∈ hist, s.id ≠ st.id) :
    ∃ c', c.acceptStore st = .ok c' ∧ Refines f₀ (hist ++ [st]) (m.step (.store st.line st)) c' := by
  obtain ⟨d, hline, hd, -⟩ := h.getCacheline st.address
  change c.getCachelineFromAddress st.address = (d, ⟨st.line, cachelineBytes, (m st.line).pending⟩) at hline
  have hcan := hinLine.canAccept (m st.line).pending
  refine ⟨⟨d.set st.line ⟨st.line, cachelineBytes, (m st.line).pending ++ [st]⟩, c.heap⟩, ?_, ?_⟩
  · rw [WitcherCache.acceptStore, hline]
    simp only [WitcherCacheline.acceptStore, hcan, assert_true, Loops.ok_bind]
    rfl
  · have hpers : ∀ a, (m.step (.store st.line st) a).persisted = (m a).persisted :=
      m.persisted_step (by simp) (by simp)
    refine
      { h with
        stores := ?_, nodup := ?_, inLine := ?_, mapped := ?_, line := ?_, absent := ?_, persisted := ?_
        flushing := ?_, clear := ?_, fresh := ?_, file := ?_, written := ?_ }
    · intro a
      rw [Memory.stores_step, h.stores a, List.filter_append]
      by_cases ha : st.line = a <;> simp [storesAt, ha]
    · exact nodup_ids_concat h.nodup hfresh
    · intro s hs
      rcases List.mem_append.mp hs with hs | hs
      · exact h.inLine s hs
      · rw [List.mem_singleton.mp hs]
        exact hinLine
    · intro s hs
      rcases List.mem_append.mp hs with hs | hs
      · exact h.mapped s hs
      · rw [List.mem_singleton.mp hs]
        exact hmapped
    · intro a l hl
      rw [Dict.get?_set] at hl
      split_ifs at hl with ha
      · cases hl
        rw [ha, m.step_store_self]
        simp [Line.pending]
      · rw [m.step_store_of_ne ha]
        exact hd.line a l hl
    · intro a ha
      rw [Dict.get?_set] at ha
      split_ifs at ha with hne
      rw [m.step_store_of_ne hne]
      exact hd.absent a ha
    · intro a s hs
      rw [hpers a] at hs
      exact h.persisted a s hs
    · intro a s hs
      rw [m.flushing_step_store] at hs
      exact h.flushing a s hs
    · intro a s hs
      by_cases ha : a = st.line
      · rw [ha, m.step_store_self] at hs
        rcases List.mem_append.mp hs with hs | hs
        · exact h.clear _ s hs
        · rw [List.mem_singleton.mp hs]
          exact h.fresh st.id hfresh
      · rw [m.step_store_of_ne ha] at hs
        exact h.clear a s hs
    · intro i hi
      exact h.fresh i fun s hs => hi s (List.mem_append_left _ hs)
    · intro i
      rw [hpers]
      exact h.file i
    · intro i
      simp only [hpers]
      exact h.written i

/-- The flush loop of a line marks its stores. -/
theorem flush_loop (l : List Store) (hp : Heap) (hflag : ∀ st ∈ l, hp.flushed st.id ≠ .fenced) :
    l.foldlM Heap.acceptFlush hp =
      .ok { hp with flushed := fun i => if i ∈ l.map (·.id) then .flushing else hp.flushed i } := by
  induction l generalizing hp with
  | nil => rfl
  | cons st l ih =>
      have hfirst : hp.acceptFlush st =
          .ok { hp with flushed := Function.update hp.flushed st.id .flushing } := by
        have hok : (hp.flushed st.id).acceptFlush = .ok .flushing := by
          cases hcase : hp.flushed st.id with
          | clear => rfl
          | flushing => rfl
          | fenced => exact absurd hcase (hflag st List.mem_cons_self)
        rw [Heap.acceptFlush, hok, Loops.ok_bind]
      rw [Loops.foldlM_cons_ok hfirst, ih _ ?_]
      · simp only [Except.ok.injEq, Heap.mk.injEq, true_and]
        funext i
        by_cases hi : i = st.id
        · subst hi
          simp
        · simp [hi]
      · intro s hs
        by_cases hid : s.id = st.id
        · simp [hid]
        · simp only [Function.update_of_ne hid]
          exact hflag s (List.mem_cons_of_mem st hs)

/-- Accepting a flush: no assertion fails, and the whole line becomes flushing. -/
theorem acceptFlush (h : Refines f₀ hist m c) (f : Flush) :
    ∃ c', c.acceptFlush f = .ok c' ∧ Refines f₀ hist (m.step (.flush f.address)) c' := by
  obtain ⟨d, hline, hd, -⟩ := h.getCacheline f.address
  have hidem : getCachelineAddress f.address = f.address := getCachelineAddress_idem _
  rw [hidem] at hline
  have hpers : ∀ a, (m.step (.flush f.address) a).persisted = (m a).persisted :=
    m.persisted_step (by simp) (by simp)
  refine ⟨⟨d, { c.heap with
    flushed := fun i => if i ∈ (m f.address).pending.map (·.id) then .flushing else c.heap.flushed i }⟩, ?_, ?_⟩
  · rw [WitcherCache.acceptFlush, hline]
    simp only [WitcherCacheline.acceptFlush, WitcherCacheline.canAcceptFlushOp, Flush.size, decide_true,
      Bool.and_self, assert_true, Loops.ok_bind]
    rw [flush_loop _ _ fun st hst => h.pending_not_fenced hst]
    rfl
  · -- the field of a store outside the flushed line's pending part is untouched
    have hkeep : ∀ st ∈ hist, st ∉ (m f.address).pending →
        (if st.id ∈ (m f.address).pending.map (·.id) then Flushed.flushing else c.heap.flushed st.id) =
          c.heap.flushed st.id := by
      intro st hst hnot
      apply if_neg
      intro hmem
      obtain ⟨s, hs, hid⟩ := List.mem_map.mp hmem
      exact hnot (h.eq_of_id (h.pending_hist hs).1 hst hid ▸ hs)
    have hother : ∀ a ≠ f.address, ∀ st ∈ (m a).pending,
        (if st.id ∈ (m f.address).pending.map (·.id) then Flushed.flushing else c.heap.flushed st.id) =
          c.heap.flushed st.id := by
      intro a ha st hst
      obtain ⟨hhist, hline⟩ := h.pending_hist hst
      exact hkeep st hhist fun hp => ha (hline.symm.trans (h.pending_hist hp).2)
    refine
      { h with
        stores := ?_, line := ?_, absent := ?_, persisted := ?_, flushing := ?_, clear := ?_, fresh := ?_
        file := ?_, written := ?_ }
    · intro a
      rw [Memory.stores_step, h.stores a]
      simp [storesAt]
    · intro a l hl
      rw [m.pending_step_flush]
      exact hd.line a l hl
    · intro a ha
      rw [m.pending_step_flush]
      exact hd.absent a ha
    · intro a st hst
      rw [hpers a] at hst
      have hmem := h.mem_stores.mp (List.mem_append_left _ hst)
      have hnot : st ∉ (m f.address).pending := fun hp => h.pending_not_fenced hp (h.persisted a st hst)
      simp only [hkeep st hmem.1 hnot]
      exact h.persisted a st hst
    · intro a st hst
      by_cases ha : a = f.address
      · rw [ha, m.step_flush_self] at hst
        exact if_pos (List.mem_map_of_mem hst)
      · rw [m.step_flush_of_ne ha] at hst
        exact (hother a ha st (flushing_pending hst)).trans (h.flushing a st hst)
    · intro a st hst
      by_cases ha : a = f.address
      · rw [ha, m.step_flush_self] at hst
        cases hst
      · rw [m.step_flush_of_ne ha] at hst
        exact (hother a ha st (clear_pending hst)).trans (h.clear a st hst)
    · intro i hi
      simp only
      rw [if_neg]
      · exact h.fresh i hi
      · intro hmem
        obtain ⟨s, hs, hid⟩ := List.mem_map.mp hmem
        exact hi s (h.pending_hist hs).1 hid
    · intro i
      rw [hpers]
      exact h.file i
    · intro i
      simp only [hpers]
      exact h.written i

/-! ### Writing back -/

theorem mem_keys_of_pending (h : Refines f₀ hist m c) {a : Nat} {st : Store} (hst : st ∈ (m a).pending) :
    a ∈ c.cachelineDict.keys := by
  by_contra hnot
  rw [h.absent a ((c.cachelineDict.get?_eq_none_iff a).mpr hnot)] at hst
  cases hst

theorem mem_flatMap_keys (h : Refines f₀ hist m c) {g : Nat → List Store}
    (hg : ∀ a, ∀ st ∈ g a, st ∈ (m a).pending) {st : Store} :
    st ∈ c.cachelineDict.keys.flatMap g ↔ ∃ a, st ∈ g a := by
  rw [List.mem_flatMap]
  exact ⟨fun ⟨a, _, hst⟩ => ⟨a, hst⟩, fun ⟨a, hst⟩ => ⟨a, h.mem_keys_of_pending (hg a st hst), hst⟩⟩

/-- The file after part of every line has been persisted, whatever the order of the lines. -/
theorem file_persist (h : Refines f₀ hist m c) {g : Nat → List Store}
    (hg : ∀ a, ∀ st ∈ g a, st ∈ (m a).pending) (i : Nat) :
    (c.heap.persist (c.cachelineDict.keys.flatMap g)).binaryFile.fileMap[i]? =
      (lastWrite (((m ((f₀.mapBase + i) / 64 * 64)).persisted ++ g ((f₀.mapBase + i) / 64 * 64)).map
        (Store.write f₀.mapBase)) i).or f₀.fileMap[i]? := by
  have hhist : ∀ st ∈ c.cachelineDict.keys.flatMap g, st ∈ hist := by
    intro st hst
    obtain ⟨a, ha⟩ := (h.mem_flatMap_keys hg).mp hst
    exact (h.pending_hist (hg a st ha)).1
  have hline : ∀ k ∈ c.cachelineDict.keys, ∀ st ∈ g k, st.line = k :=
    fun k _ st hst => (h.pending_hist (hg k st hst)).2
  have hone : (if (f₀.mapBase + i) / 64 * 64 ∈ c.cachelineDict.keys then g ((f₀.mapBase + i) / 64 * 64) else []) =
      g ((f₀.mapBase + i) / 64 * 64) := by
    split_ifs with hkey
    · rfl
    · cases hcase : g ((f₀.mapBase + i) / 64 * 64) with
      | nil => rfl
      | cons st rest =>
          exact absurd (h.mem_keys_of_pending (hg _ st (by rw [hcase]; exact List.mem_cons_self))) hkey
  have hlast : lastWrite ((c.cachelineDict.keys.flatMap g).map (Store.write f₀.mapBase)) i =
      lastWrite ((g ((f₀.mapBase + i) / 64 * 64)).map (Store.write f₀.mapBase)) i := by
    rw [← hone, ← filter_flatMap_line g _ c.cachelineDict.nodup_keys hline, lastWrite_map_filter]
    intro st hst hne
    exact h.read_eq_none (hhist st hst) (by simpa using hne)
  simp only [Heap.persist]
  rw [getElem?_applyWrites]
  · rw [h.mapBase, hlast, h.file i, List.map_append, lastWrite_append, Option.or_assoc]
  · intro w hw
    obtain ⟨st, hst, rfl⟩ := List.mem_map.mp hw
    rw [h.mapBase, h.length]
    exact (h.mapped st (hhist st hst)).fits

theorem written_persist (h : Refines f₀ hist m c) {g : Nat → List Store}
    (hg : ∀ a, ∀ st ∈ g a, st ∈ (m a).pending) (i : Nat) :
    i ∈ (c.heap.persist (c.cachelineDict.keys.flatMap g)).binaryFile.written ↔
      i ∈ f₀.written ∨ ∃ a, ∃ st ∈ (m a).persisted ++ g a, st.id = i := by
  simp only [Heap.persist, List.mem_append, List.mem_map, h.written i]
  constructor
  · rintro ((hi | ⟨a, st, hst, rfl⟩) | ⟨st, hst, rfl⟩)
    · exact .inl hi
    · exact .inr ⟨a, st, .inl hst, rfl⟩
    · obtain ⟨a, ha⟩ := (h.mem_flatMap_keys hg).mp hst
      exact .inr ⟨a, st, .inr ha, rfl⟩
  · rintro (hi | ⟨a, st, hst | hst, rfl⟩)
    · exact .inl (.inl hi)
    · exact .inl (.inr ⟨a, st, hst, rfl⟩)
    · exact .inr ⟨st, (h.mem_flatMap_keys hg).mpr ⟨a, hst⟩, rfl⟩

theorem persisted_persist (h : Refines f₀ hist m c) {g : Nat → List Store}
    (hg : ∀ a, ∀ st ∈ g a, st ∈ (m a).pending) (a : Nat) (st : Store) (hst : st ∈ (m a).persisted ++ g a) :
    (c.heap.persist (c.cachelineDict.keys.flatMap g)).flushed st.id = .fenced := by
  rcases List.mem_append.mp hst with hst | hst
  · by_cases hmem : st.id ∈ (c.cachelineDict.keys.flatMap g).map (·.id)
    · exact if_pos hmem
    · rw [c.heap.persist_flushed_of_not_mem]
      · exact h.persisted a st hst
      · exact fun s hs hid => hmem (List.mem_map.mpr ⟨s, hs, hid⟩)
  · exact c.heap.persist_flushed_of_mem ((h.mem_flatMap_keys hg).mpr ⟨a, hst⟩)

/-- A store of the history that is not among those persisted keeps its field. -/
theorem kept_persist (h : Refines f₀ hist m c) {g : Nat → List Store}
    (hg : ∀ a, ∀ st ∈ g a, st ∈ (m a).pending) {st : Store} (hst : st ∈ hist) (hnot : st ∉ g st.line) :
    (c.heap.persist (c.cachelineDict.keys.flatMap g)).flushed st.id = c.heap.flushed st.id := by
  apply c.heap.persist_flushed_of_not_mem
  intro s hs hid
  obtain ⟨a, ha⟩ := (h.mem_flatMap_keys hg).mp hs
  obtain ⟨hmem, hline⟩ := h.pending_hist (hg a s ha)
  have heq := h.eq_of_id hmem hst hid
  exact hnot (by rw [← heq, hline]; exact ha)

theorem fresh_persist (h : Refines f₀ hist m c) {g : Nat → List Store}
    (hg : ∀ a, ∀ st ∈ g a, st ∈ (m a).pending) (i : Nat) (hi : ∀ st ∈ hist, st.id ≠ i) :
    (c.heap.persist (c.cachelineDict.keys.flatMap g)).flushed i = .clear := by
  rw [c.heap.persist_flushed_of_not_mem]
  · exact h.fresh i hi
  · intro s hs
    obtain ⟨a, ha⟩ := (h.mem_flatMap_keys hg).mp hs
    exact hi s (h.pending_hist (hg a s ha)).1

theorem maps_flatMap_keys (h : Refines f₀ hist m c) {g : Nat → List Store}
    (hg : ∀ a, ∀ st ∈ g a, st ∈ (m a).pending) : c.heap.Maps (c.cachelineDict.keys.flatMap g) := by
  apply h.maps
  intro st hst
  obtain ⟨a, ha⟩ := (h.mem_flatMap_keys hg).mp hst
  exact (h.pending_hist (hg a st ha)).1

/-- A write-back loop over the lines of a related cache: it persists `g` of each line. -/
theorem traverse_lines (h : Refines f₀ hist m c) (g kept : Nat → List Store)
    (hg : ∀ a, ∀ st ∈ g a, st ∈ (m a).pending)
    (f : Heap → WitcherCacheline → Except ReplayError (Heap × WitcherCacheline))
    (hf : ∀ a, ∀ h' : Heap, (∀ st ∈ (m a).pending, h'.flushed st.id = c.heap.flushed st.id) →
      h'.Maps (m a).pending →
      f h' ⟨a, cachelineBytes, (m a).pending⟩ = .ok (h'.persist (g a), ⟨a, cachelineBytes, kept a⟩)) :
    ∃ d : Dict Nat WitcherCacheline,
      c.cachelineDict.traverse f c.heap = .ok (c.heap.persist (c.cachelineDict.keys.flatMap g), d) ∧
      d.keys = c.cachelineDict.keys ∧ ∀ a ∈ d.keys, d.get? a = some ⟨a, cachelineBytes, kept a⟩ := by
  have hentry : ∀ e ∈ c.cachelineDict.entries, e.2 = ⟨e.1, cachelineBytes, (m e.1).pending⟩ :=
    fun e he => h.line e.1 e.2 ((c.cachelineDict.mem_entries_iff e.1 e.2).mp he)
  have hrun := traverse_persist f g (fun a => (m a).pending) kept c.cachelineDict.entries c.heap
    c.cachelineDict.nodup
    (fun e _ e' _ hne st hst st' hst' => h.pending_ids_ne hne (hg e.1 st hst) hst')
    (fun e _ => h.maps fun st hst => (h.pending_hist (hg e.1 st hst)).1)
    (by
      intro e he h' hflag hbase hlen
      rw [hentry e he]
      refine hf e.1 h' hflag ?_
      intro st hst
      rw [hbase, hlen]
      exact h.maps (fun s hs => (h.pending_hist hs).1) st hst)
  obtain ⟨d, hd, hentries⟩ := Dict.traverse_ok hrun
  refine ⟨d, ?_, ?_, ?_⟩
  · rw [hd, Dict.keys, List.flatMap_map]
  · rw [Dict.keys, hentries, List.map_map, Dict.keys]
    rfl
  · intro a ha
    rw [Dict.keys, hentries, List.map_map] at ha
    obtain ⟨e, he, rfl⟩ := List.mem_map.mp ha
    rw [← d.mem_entries_iff, hentries]
    refine List.mem_map.mpr ⟨e, he, ?_⟩
    simp only [hentry e he, Function.comp]

/-- The lines left after deleting the empty ones. -/
theorem delete_empty (d : Dict Nat WitcherCacheline) (kept : Nat → List Store)
    (hget : ∀ a ∈ d.keys, d.get? a = some ⟨a, cachelineBytes, kept a⟩) :
    ∃ d', (d.values.filter WitcherCacheline.isEmpty).foldlM WitcherCache.delete d = .ok d' ∧
      (∀ a l, d'.get? a = some l → l = ⟨a, cachelineBytes, kept a⟩) ∧
      ∀ a ∈ d.keys, d'.get? a = none → kept a = [] := by
  have hentry : ∀ e ∈ d.entries, e.2 = ⟨e.1, cachelineBytes, kept e.1⟩ := by
    intro e he
    have h1 := hget e.1 (List.mem_map_of_mem he)
    rw [(d.mem_entries_iff e.1 e.2).mp he] at h1
    exact Option.some.inj h1
  have haddr : d.values.map (·.address) = d.keys := by
    rw [Dict.values, List.map_map, Dict.keys]
    apply List.map_congr_left
    intro e he
    rw [Function.comp, hentry e he]
  have hsub : ((d.values.filter WitcherCacheline.isEmpty).map (·.address)).Sublist d.keys := by
    rw [← haddr]
    exact List.filter_sublist.map _
  have hmem : ∀ a, a ∈ (d.values.filter WitcherCacheline.isEmpty).map (·.address) ↔ a ∈ d.keys ∧ kept a = [] := by
    intro a
    constructor
    · intro ha
      obtain ⟨l, hl, rfl⟩ := List.mem_map.mp ha
      obtain ⟨hl, hempty⟩ := List.mem_filter.mp hl
      obtain ⟨e, he, rfl⟩ := List.mem_map.mp hl
      rw [hentry e he] at hempty ⊢
      exact ⟨List.mem_map_of_mem he, by simpa [WitcherCacheline.isEmpty] using hempty⟩
    · rintro ⟨ha, hkept⟩
      obtain ⟨e, he, rfl⟩ := List.mem_map.mp ha
      refine List.mem_map.mpr ⟨e.2, List.mem_filter.mpr ⟨List.mem_map_of_mem he, ?_⟩, by rw [hentry e he]⟩
      rw [hentry e he]
      simp [WitcherCacheline.isEmpty, hkept]
  obtain ⟨d', hd', hget'⟩ := delete_loop (d.values.filter WitcherCacheline.isEmpty) d
    (d.nodup_keys.sublist hsub) (by
      intro l hl
      have hkey : l.address ∈ d.keys := hsub.subset (List.mem_map_of_mem hl)
      rw [hget _ hkey]
      rfl)
  refine ⟨d', hd', ?_, ?_⟩
  · intro a l hl
    rw [hget' a] at hl
    split_ifs at hl with hcase
    have hkey : a ∈ d.keys := by
      by_contra hnot
      rw [(d.get?_eq_none_iff a).mpr hnot] at hl
      cases hl
    rw [hget a hkey] at hl
    exact (Option.some.inj hl).symm
  · intro a ha hnone
    rw [hget' a] at hnone
    split_ifs at hnone with hcase
    · exact ((hmem a).mp hcase).2
    · rw [hget a ha] at hnone
      cases hnone

/-- A fence: exactly the flushing stores are written, and the empty lines are dropped. -/
theorem writeBackAllFlushingStores (h : Refines f₀ hist m c) :
    ∃ c', c.writeBackAllFlushingStores = .ok c' ∧ Refines f₀ hist (m.step .fence) c' := by
  have hg : ∀ a, ∀ st ∈ (m a).flushing, st ∈ (m a).pending := fun a st hst => flushing_pending hst
  obtain ⟨d, hrun, hkeys, hget⟩ := h.traverse_lines (fun a => (m a).flushing) (fun a => (m a).clear) hg
    WitcherCacheline.writeBackAllFlushingStores (by
      intro a h' hflag hmaps
      apply WitcherCacheline.writeBackAllFlushingStores_spec h' _ (m a).flushing (m a).clear rfl
      · intro st hst
        rw [hflag st (flushing_pending hst), h.flushing a st hst]
      · intro st hst
        rw [hflag st (clear_pending hst), h.clear a st hst]
      · exact h.pending_nodup a
      · exact hmaps)
  obtain ⟨d', hdelete, hline, habsent⟩ := delete_empty d (fun a => (m a).clear) hget
  refine ⟨⟨d', c.heap.persist (c.cachelineDict.keys.flatMap fun a => (m a).flushing)⟩, ?_, ?_⟩
  · rw [WitcherCache.writeBackAllFlushingStores, hrun, Loops.ok_bind]
    simp only [hdelete, Loops.ok_bind]
  · refine
      { h with
        stores := ?_, line := ?_, absent := ?_, persisted := h.persisted_persist hg, flushing := ?_, clear := ?_
        fresh := h.fresh_persist hg, length := ?_, file := h.file_persist hg, written := h.written_persist hg }
    · intro a
      rw [Memory.stores_step, h.stores a]
      simp [storesAt]
    · intro a l hl
      exact hline a l hl
    · intro a ha
      show (m a).clear = []
      by_cases hkey : a ∈ d.keys
      · exact habsent a hkey ha
      · rw [hkeys, ← c.cachelineDict.get?_eq_none_iff] at hkey
        exact (List.append_eq_nil_iff.mp (h.absent a hkey)).2
    · intro a st hst
      cases hst
    · intro a st hst
      obtain ⟨hmem, rfl⟩ := h.pending_hist (clear_pending hst)
      rw [h.kept_persist hg hmem]
      · exact h.clear _ st hst
      · intro hflush
        have h1 := h.flushing _ st hflush
        rw [h.clear _ st hst] at h1
        cases h1
    · rw [c.heap.persist_length (h.maps_flatMap_keys hg), h.length]

/-- Writing back everything leaves the cache empty. -/
theorem writeBackAllStores (h : Refines f₀ hist m c) :
    ∃ c', c.writeBackAllStores = .ok c' ∧ Refines f₀ hist (m.step .drain) c' := by
  have hg : ∀ a, ∀ st ∈ (m a).pending, st ∈ (m a).pending := fun a st hst => hst
  obtain ⟨d, hrun, hkeys, hget⟩ := h.traverse_lines (fun a => (m a).pending) (fun _ => []) hg
    WitcherCacheline.writeBackAllStores (by
      intro a h' hflag hmaps
      apply WitcherCacheline.writeBackAllStores_spec h' _
      · intro st hst
        rw [hflag st hst]
        exact h.pending_not_fenced hst
      · exact h.pending_nodup a
      · exact hmaps)
  have hdrain : ∀ a, (m.step .drain a).persisted = (m a).persisted ++ (m a).pending := by
    intro a
    simp [Memory.step, Line.pending]
  refine ⟨⟨Dict.empty, c.heap.persist (c.cachelineDict.keys.flatMap fun a => (m a).pending)⟩, ?_, ?_⟩
  · rw [WitcherCache.writeBackAllStores, hrun, Loops.ok_bind]
  · refine
      { h with
        stores := ?_, line := ?_, absent := fun a _ => rfl, persisted := ?_, flushing := ?_, clear := ?_
        fresh := h.fresh_persist hg, length := ?_, file := ?_, written := ?_ }
    · intro a
      rw [Memory.stores_step, h.stores a]
      simp [storesAt]
    · intro a l hl
      cases hl
    · intro a st hst
      rw [hdrain a] at hst
      exact h.persisted_persist hg a st hst
    · intro a st hst
      cases hst
    · intro a st hst
      cases hst
    · rw [c.heap.persist_length (h.maps_flatMap_keys hg), h.length]
    · intro i
      rw [hdrain]
      exact h.file_persist hg i
    · intro i
      simp only [hdrain]
      exact h.written_persist hg i

end Refines

end Witcher
