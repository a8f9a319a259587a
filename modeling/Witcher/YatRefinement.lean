import Witcher.PersistencyCounts
import Witcher.YatCache

/-! The counting cache refines the persistency memory up to the order of the stores inside a line, and
so it counts the choices of that memory. -/

namespace Witcher

open Persistency

/-- The lines hold the pending stores of their addresses, in some order, and the marks are those of
the memory. `hist` are the stores accepted so far. -/
structure YatRefines (hist : List Store) (m : Memory Nat Store) (c : YatCache) : Prop where
  ids : (hist.map (·.id)).Nodup
  pending_hist : ∀ a, ∀ st ∈ (m a).pending, st ∈ hist ∧ st.line = a
  nodup : (c.cachelines.map (·.address)).Nodup
  shape : ∀ l ∈ c.cachelines, l.Shape
  line : ∀ l ∈ c.cachelines, l.stores.Perm (m l.address).pending
  absent : ∀ a, a ∉ c.cachelines.map (·.address) → (m a).pending = []
  flushing : ∀ a, ∀ st ∈ (m a).flushing, c.flushed st.id = .flushing
  clear : ∀ a, ∀ st ∈ (m a).clear, c.flushed st.id = .clear
  fresh : ∀ i, (∀ st ∈ hist, st.id ≠ i) → c.flushed i = .clear

theorem YatRefines.new : YatRefines [] Memory.empty YatCache.new where
  ids := List.nodup_nil
  pending_hist a st hst := by cases hst
  nodup := List.nodup_nil
  shape l hl := by cases hl
  line l hl := by cases hl
  absent a _ := rfl
  flushing a st hst := by cases hst
  clear a st hst := by cases hst
  fresh i _ := rfl

/-- The lines `ls'` are `ls` with the store added to the line of its address, or to a new one. -/
structure StoreAdded (st : Store) (ls ls' : List YatCacheline) : Prop where
  nodup : (ls'.map (·.address)).Nodup
  shape : ∀ l ∈ ls', l.Shape
  addresses : ∀ a, a ∈ ls'.map (·.address) ↔ a ∈ ls.map (·.address) ∨ a = st.line
  other : ∀ l ∈ ls', l.address ≠ st.line → l ∈ ls
  this : ∀ l' ∈ ls', l'.address = st.line →
    (∃ l ∈ ls, l.address = st.line ∧ l'.stores.Perm (l.stores ++ [st])) ∨
      (st.line ∉ ls.map (·.address) ∧ l'.stores.Perm [st])

namespace StoreAdded

variable {st : Store} {l l' : YatCacheline} {ls ls' : List YatCacheline}

theorem fresh (hshape : l.Shape) (haddress : l.address = st.line) (hperm : l.stores.Perm [st]) :
    StoreAdded st [] [l] where
  nodup := by simp
  shape := by simpa using hshape
  addresses := by simp [haddress]
  other k hk hne := by
    rw [List.mem_singleton.mp hk] at hne
    exact absurd haddress hne
  this k hk _ := by
    rw [List.mem_singleton.mp hk]
    exact .inr ⟨by simp, hperm⟩

/-- The store is added to the first line. -/
theorem here (hshape : ∀ k ∈ l :: ls, k.Shape) (hnodup : ((l :: ls).map (·.address)).Nodup) (hline : l.address = st.line)
    (hshape' : l'.Shape) (haddress : l'.address = l.address) (hperm : l'.stores.Perm (l.stores ++ [st])) :
    StoreAdded st (l :: ls) (l' :: ls) where
  nodup := by
    rw [List.map_cons, haddress]
    exact hnodup
  shape k hk := by
    rcases List.mem_cons.mp hk with rfl | hk
    · exact hshape'
    · exact hshape k (List.mem_cons_of_mem l hk)
  addresses a := by
    rw [List.map_cons, List.map_cons, haddress, List.mem_cons, hline]
    tauto
  other k hk hne := by
    rcases List.mem_cons.mp hk with rfl | hk
    · exact absurd (haddress.trans hline) hne
    · exact List.mem_cons_of_mem l hk
  this k hk heq := by
    rcases List.mem_cons.mp hk with rfl | hk
    · exact .inl ⟨l, List.mem_cons_self, hline, hperm⟩
    · refine absurd ?_ (List.nodup_cons.mp hnodup).1
      exact List.mem_map.mpr ⟨k, hk, heq.trans hline.symm⟩

/-- The store is added behind the first line. -/
theorem there (h : StoreAdded st ls ls') (hshape : l.Shape) (hhead : l.address ∉ ls.map (·.address))
    (hline : l.address ≠ st.line) : StoreAdded st (l :: ls) (l :: ls') where
  nodup := by
    rw [List.map_cons, List.nodup_cons, h.addresses]
    refine ⟨?_, h.nodup⟩
    rintro (hmem | heq)
    · exact hhead hmem
    · exact hline heq
  shape k hk := by
    rcases List.mem_cons.mp hk with rfl | hk
    · exact hshape
    · exact h.shape k hk
  addresses a := by
    rw [List.map_cons, List.map_cons, List.mem_cons, List.mem_cons, h.addresses, or_assoc]
  other k hk hne := by
    rcases List.mem_cons.mp hk with rfl | hk
    · exact List.mem_cons_self
    · exact List.mem_cons_of_mem l (h.other k hk hne)
  this k hk heq := by
    rcases List.mem_cons.mp hk with rfl | hk
    · exact absurd heq hline
    · rcases h.this k hk heq with ⟨l', hl', haddr, hperm⟩ | ⟨hnot, hperm⟩
      · exact .inl ⟨l', List.mem_cons_of_mem l hl', haddr, hperm⟩
      · refine .inr ⟨?_, hperm⟩
        rw [List.map_cons, List.mem_cons]
        rintro (h | h)
        · exact hline h.symm
        · exact hnot h

end StoreAdded

/-- The loop over the lines adds the store to the line of its address, or to a new one at the end. -/
theorem acceptStoreLines_ok {st : Store} (hatomic : st.Atomic) (hoverlap : st.OverlapsWord) (ls : List YatCacheline)
    (hshape : ∀ l ∈ ls, l.Shape) (hnodup : (ls.map (·.address)).Nodup) :
    ∃ ls', YatCache.acceptStoreLines st ls = .ok ls' ∧ StoreAdded st ls ls' := by
  induction ls with
  | nil =>
      have haligned : 64 ∣ st.line := by
        rw [hatomic.line_eq]
        exact Nat.dvd_mul_left 64 _
      obtain ⟨l, hl, hlshape, haddress, hperm⟩ :=
        (YatCacheline.shape_new haligned).acceptStore hatomic hoverlap rfl
      have hempty : (YatCacheline.new st.line cachelineBytes atomicWriteBytes).stores = [] := by
        simp [YatCacheline.stores, YatCacheline.new]
      rw [hempty, List.nil_append] at hperm
      have hnew : YatCache.acceptStoreLines st [] = .ok [l] := by
        rw [YatCache.acceptStoreLines, ← Store.line, hl]
        rfl
      exact ⟨[l], hnew, .fresh hlshape haddress hperm⟩
  | cons l ls ih =>
      have hl := hshape l List.mem_cons_self
      obtain ⟨hhead, hnodup'⟩ := List.nodup_cons.mp hnodup
      by_cases hline : l.address = st.line
      · obtain ⟨i, _, hbucket⟩ := (hl.getBucket hatomic hoverlap).2 hline
        obtain ⟨l', hl', hlshape, haddress, hperm⟩ := hl.acceptStore hatomic hoverlap hline
        refine ⟨l' :: ls, ?_, .here hshape hnodup hline hlshape haddress hperm⟩
        simp only [YatCache.acceptStoreLines, YatCacheline.canAcceptStore, hbucket, Loops.ok_bind, Option.isSome_some,
          if_true, hl']
      · have hbucket := (hl.getBucket hatomic hoverlap).1 hline
        obtain ⟨ls', hls', hadded⟩ := ih (fun k hk => hshape k (List.mem_cons_of_mem l hk)) hnodup'
        refine ⟨l :: ls', ?_, hadded.there hl hhead hline⟩
        simp only [YatCache.acceptStoreLines, YatCacheline.canAcceptStore, hbucket, Loops.ok_bind, Option.isSome_none,
          Bool.false_eq_true, if_false, hls']

namespace YatRefines

variable {hist : List Store} {m : Memory Nat Store} {c : YatCache}

theorem acceptStore (h : YatRefines hist m c) {st : Store} (hatomic : st.Atomic) (hoverlap : st.OverlapsWord)
    (hfresh : ∀ s ∈ hist, s.id ≠ st.id) :
    ∃ c', c.acceptStore st = .ok c' ∧ YatRefines (hist ++ [st]) (m.step (.store st.line st)) c' := by
  obtain ⟨ls, hls, hadded⟩ := acceptStoreLines_ok hatomic hoverlap c.cachelines h.shape h.nodup
  have hstep : ∀ a, (m.step (.store st.line st) a).pending =
      if a = st.line then (m a).pending ++ [st] else (m a).pending := by
    intro a
    split_ifs with ha
    · subst ha
      rw [m.step_store_self, Line.pending, Line.pending, List.append_assoc]
    · rw [m.step_store_of_ne ha]
  refine ⟨{ c with cachelines := ls }, by simp only [YatCache.acceptStore, hls, Loops.ok_bind], ?_⟩
  refine ⟨?_, ?_, hadded.nodup, hadded.shape, ?_, ?_, ?_, ?_, ?_⟩
  · exact nodup_ids_concat h.ids hfresh
  · intro a s hs
    rw [hstep] at hs
    split_ifs at hs with ha
    · rcases List.mem_append.mp hs with hs | hs
      · obtain ⟨hhist, hline⟩ := h.pending_hist a s hs
        exact ⟨List.mem_append_left _ hhist, hline⟩
      · rw [List.mem_singleton.mp hs]
        exact ⟨List.mem_append_right _ (List.mem_singleton_self st), ha.symm⟩
    · obtain ⟨hhist, hline⟩ := h.pending_hist a s hs
      exact ⟨List.mem_append_left _ hhist, hline⟩
  · intro l hl
    rw [hstep]
    split_ifs with ha
    · rcases hadded.this l hl ha with ⟨l', hl', haddress, hperm⟩ | ⟨hnot, hperm⟩
      · refine hperm.trans (List.Perm.append_right _ ?_)
        rw [ha, ← haddress]
        exact h.line l' hl'
      · rw [ha, h.absent _ hnot]
        exact hperm
    · exact h.line l (hadded.other l hl ha)
  · intro a ha
    rw [hadded.addresses, not_or] at ha
    rw [hstep, if_neg ha.2]
    exact h.absent a ha.1
  · intro a s hs
    rw [m.flushing_step_store] at hs
    exact h.flushing a s hs
  · intro a s hs
    by_cases ha : a = st.line
    · subst ha
      rw [m.step_store_self] at hs
      rcases List.mem_append.mp hs with hs | hs
      · exact h.clear _ s hs
      · rw [List.mem_singleton.mp hs]
        exact h.fresh st.id hfresh
    · rw [m.step_store_of_ne ha] at hs
      exact h.clear a s hs
  · intro i hi
    exact h.fresh i fun s hs => hi s (List.mem_append_left _ hs)

/-- The stores a flush marks are those pending on its line. -/
theorem flushed_acceptFlush (h : YatRefines hist m c) (f : Flush) (i : Nat) :
    (c.acceptFlush f).flushed i = if ∃ st ∈ (m f.address).pending, st.id = i then .flushing else c.flushed i := by
  cases hfind : c.cachelines.find? (·.canAcceptFlush f) with
  | some l =>
      have hl := List.mem_of_find?_eq_some hfind
      have hcan := List.find?_some hfind
      simp only [YatCacheline.canAcceptFlush, Bool.and_eq_true, decide_eq_true_eq] at hcan
      have hperm := h.line l hl
      rw [hcan.1] at hperm
      simp only [YatCache.acceptFlush, hfind, YatCacheline.acceptFlush_apply, hperm.mem_iff]
  | none =>
      have habsent : (m f.address).pending = [] := by
        apply h.absent
        intro hmem
        obtain ⟨l, hl, haddress⟩ := List.mem_map.mp hmem
        refine List.find?_eq_none.mp hfind l hl ?_
        simp [YatCacheline.canAcceptFlush, haddress, (h.shape l hl).size, Flush.size, cachelineBytes]
      simp [YatCache.acceptFlush, hfind, habsent]

/-- The marks of the stores on other lines stay. -/
theorem flushed_acceptFlush_of_ne (h : YatRefines hist m c) (f : Flush) {a : Nat} (ha : a ≠ f.address) {st : Store}
    (hst : st ∈ (m a).pending) : (c.acceptFlush f).flushed st.id = c.flushed st.id := by
  rw [h.flushed_acceptFlush, if_neg]
  rintro ⟨s, hs, hid⟩
  obtain ⟨hhist, hline⟩ := h.pending_hist a st hst
  obtain ⟨hhist', hline'⟩ := h.pending_hist _ s hs
  have hsame := List.inj_on_of_nodup_map h.ids hhist' hhist hid
  rw [hsame, hline] at hline'
  exact ha hline'

theorem acceptFlush (h : YatRefines hist m c) (f : Flush) :
    YatRefines hist (m.step (.flush f.address)) (c.acceptFlush f) := by
  have hlines : (c.acceptFlush f).cachelines = c.cachelines := by
    rw [YatCache.acceptFlush]
    cases c.cachelines.find? (·.canAcceptFlush f) <;> rfl
  refine ⟨h.ids, ?_, by rw [hlines]; exact h.nodup, by rw [hlines]; exact h.shape, ?_, ?_, ?_, ?_, ?_⟩
  · intro a st hst
    rw [m.pending_step_flush] at hst
    exact h.pending_hist a st hst
  · intro l hl
    rw [hlines] at hl
    rw [m.pending_step_flush]
    exact h.line l hl
  · intro a ha
    rw [hlines] at ha
    rw [m.pending_step_flush]
    exact h.absent a ha
  · intro a st hst
    by_cases ha : a = f.address
    · subst ha
      rw [m.step_flush_self] at hst
      rw [h.flushed_acceptFlush, if_pos ⟨st, hst, rfl⟩]
    · rw [m.step_flush_of_ne ha] at hst
      rw [h.flushed_acceptFlush_of_ne f ha (List.mem_append_left _ hst)]
      exact h.flushing a st hst
  · intro a st hst
    by_cases ha : a = f.address
    · rw [ha, m.step_flush_self] at hst
      cases hst
    · rw [m.step_flush_of_ne ha] at hst
      rw [h.flushed_acceptFlush_of_ne f ha (List.mem_append_right _ hst)]
      exact h.clear a st hst
  · intro i hi
    rw [h.flushed_acceptFlush, if_neg]
    · exact h.fresh i hi
    · rintro ⟨st, hst, hid⟩
      exact hi st (h.pending_hist _ st hst).1 hid

/-- At a fence the unmarked stores stay, and a line with none goes. -/
theorem flush (h : YatRefines hist m c) : YatRefines hist (m.step .fence) c.flush := by
  have hpending : ∀ a, (m.step .fence a).pending = (m a).clear := fun a => List.nil_append _
  have hkeep : ∀ a, ((m a).pending.filter fun st => c.flushed st.id = .clear) = (m a).clear := by
    intro a
    rw [Line.pending, List.filter_append, List.filter_eq_nil_iff.mpr, List.filter_eq_self.mpr, List.nil_append]
    · exact fun st hst => decide_eq_true (h.clear a st hst)
    · intro st hst
      rw [h.flushing a st hst]
      decide
  have hstores : ∀ l ∈ c.cachelines, (l.flush c.flushed).stores.Perm (m l.address).clear := by
    intro l hl
    rw [YatCacheline.stores_flush, ← hkeep]
    exact (h.line l hl).filter _
  have hmem : ∀ k ∈ c.flush.cachelines, ∃ l ∈ c.cachelines, k = l.flush c.flushed := by
    intro k hk
    obtain ⟨l, hl, rfl⟩ := List.mem_map.mp (List.mem_filter.mp hk).1
    exact ⟨l, hl, rfl⟩
  refine ⟨h.ids, ?_, ?_, ?_, ?_, ?_, ?_, h.clear, h.fresh⟩
  · intro a st hst
    rw [hpending] at hst
    exact h.pending_hist a st (List.mem_append_right _ hst)
  · have hsub : (c.flush.cachelines.map (·.address)).Sublist (c.cachelines.map (·.address)) := by
      have hfilter := (List.filter_sublist (p := fun l => !YatCacheline.isEmpty l)
        (l := c.cachelines.map (YatCacheline.flush c.flushed))).map (·.address)
      rw [List.map_map] at hfilter
      exact hfilter
    exact h.nodup.sublist hsub
  · intro k hk
    obtain ⟨l, hl, rfl⟩ := hmem k hk
    exact (h.shape l hl).flush c.flushed
  · intro k hk
    obtain ⟨l, hl, rfl⟩ := hmem k hk
    rw [hpending]
    exact hstores l hl
  · intro a ha
    rw [hpending]
    by_contra hne
    by_cases hin : a ∈ c.cachelines.map (·.address)
    · obtain ⟨l, hl, rfl⟩ := List.mem_map.mp hin
      refine ha (List.mem_map.mpr ⟨l.flush c.flushed, List.mem_filter.mpr ⟨List.mem_map_of_mem hl, ?_⟩, rfl⟩)
      rw [Bool.not_eq_true', ← Bool.not_eq_true, YatCacheline.isEmpty_iff]
      intro hnil
      have hperm := hstores l hl
      rw [hnil] at hperm
      exact hne hperm.nil_eq.symm
    · have hnil := h.absent a hin
      rw [Line.pending, List.append_eq_nil_iff] at hnil
      exact hne hnil.2
  · intro a st hst
    cases hst

/-- Dropping everything leaves an empty memory; the marks of the stores dropped stay. -/
theorem flushAll (h : YatRefines hist m c) : YatRefines hist Memory.empty c.flushAll where
  ids := h.ids
  pending_hist a st hst := by cases hst
  nodup := List.nodup_nil
  shape l hl := by cases hl
  line l hl := by cases hl
  absent a _ := rfl
  flushing a st hst := by cases hst
  clear a st hst := by cases hst
  fresh := h.fresh

/-- The permutator counts the nonempty choices of the memory. -/
theorem permutator (h : YatRefines hist m c) {keys : List Nat} (hkeys : keys.Nodup)
    (hcover : ∀ st ∈ hist, st.line ∈ keys) : YatPermutator.run c = choices keys m - 1 := by
  have hloop : ∀ (ls : List YatCacheline) (n : Nat), (∀ l ∈ ls, l.stores.Perm (m l.address).pending) →
      ls.foldl (fun n l => n * (l.getNumOfStores + 1)) n = n * choices (ls.map (·.address)) m := by
    intro ls
    induction ls with
    | nil => simp [choices]
    | cons l ls ih =>
        intro n hls
        rw [List.foldl_cons, ih _ fun k hk => hls k (List.mem_cons_of_mem l hk), l.getNumOfStores_eq,
          (hls l List.mem_cons_self).length_eq]
        simp only [choices, List.map_cons, List.prod_cons, Nat.mul_assoc]
  rw [YatPermutator.run, hloop _ _ h.line, Nat.one_mul,
    choices_eq_of_covers h.nodup hkeys (fun a ha => by_contra fun hnot => ha (h.absent a hnot)) ?_]
  intro a ha
  obtain ⟨st, hst⟩ := List.exists_mem_of_ne_nil _ ha
  obtain ⟨hhist, hline⟩ := h.pending_hist a st hst
  exact hline ▸ hcover st hhist

end YatRefines

end Witcher
