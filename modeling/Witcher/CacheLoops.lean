import Witcher.Persistency
import Witcher.WitcherCache

/-! The write-back loops of the cache, line by line. A loop over the lines persists some stores of
each line and keeps the others; as the stores of different lines are different objects, no line sees
what the loop did to another. -/

namespace Witcher

open Bytes Persistency

/-! ### Writing stores -/

def Store.write (mapBase : Nat) (st : Store) : Write UInt8 := ⟨st.address - mapBase, st.valueBytes⟩

theorem Store.Mapped.fits {mapBase length : Nat} {st : Store} (h : st.Mapped mapBase length) :
    (st.write mapBase).Fits length := by
  have := h.low
  have := h.high
  have := h.bytes
  simp only [Write.Fits, Store.write]
  omega

theorem BinaryFile.doStore_mapped (f : BinaryFile) (st : Store) (h : st.Mapped f.mapBase f.fileMap.length) :
    f.doStore st = .ok { f with
      fileMap := patch f.fileMap (st.address - f.mapBase) st.valueBytes
      written := f.written ++ [st.id] } := by
  have hlow := h.low
  have hhigh := h.high
  have hbytes := h.bytes
  have hbase : sliceBound f.fileMap.length ((st.address : Int) - f.mapBase) = st.address - f.mapBase := by
    rw [sliceBound, if_neg (by omega)]
    omega
  have hmax : sliceBound f.fileMap.length ((st.address + st.size : Int) - f.mapBase) =
      st.address + st.size - f.mapBase := by
    rw [sliceBound, if_neg (by omega)]
    omega
  rw [BinaryFile.doStore, hbase, hmax, if_pos (by omega)]

/-- The heap after the stores of a list have been written to the file and marked fenced. -/
def Heap.persist (h : Heap) (l : List Store) : Heap where
  binaryFile :=
    { h.binaryFile with
      fileMap := applyWrites h.binaryFile.fileMap (l.map (Store.write h.binaryFile.mapBase))
      written := h.binaryFile.written ++ l.map (·.id) }
  flushed i := if i ∈ l.map (·.id) then .fenced else h.flushed i

theorem Heap.persist_nil (h : Heap) : h.persist [] = h := by
  obtain ⟨f, flushed⟩ := h
  simp [Heap.persist, applyWrites]

theorem Heap.persist_append (h : Heap) (front back : List Store) :
    h.persist (front ++ back) = (h.persist front).persist back := by
  simp only [Heap.persist, List.map_append, applyWrites_append, List.append_assoc, Heap.mk.injEq, true_and]
  funext i
  simp only [List.mem_append]
  split_ifs <;> tauto

theorem Heap.persist_flushed_of_not_mem (h : Heap) {l : List Store} {i : Nat} (hi : ∀ st ∈ l, st.id ≠ i) :
    (h.persist l).flushed i = h.flushed i := by
  simp only [Heap.persist]
  rw [if_neg]
  intro hmem
  obtain ⟨st, hst, rfl⟩ := List.mem_map.mp hmem
  exact hi st hst rfl

theorem Heap.persist_flushed_of_mem (h : Heap) {l : List Store} {st : Store} (hst : st ∈ l) :
    (h.persist l).flushed st.id = .fenced := by
  simp only [Heap.persist]
  exact if_pos (List.mem_map_of_mem hst)

theorem Heap.persist_mapBase (h : Heap) (l : List Store) :
    (h.persist l).binaryFile.mapBase = h.binaryFile.mapBase := rfl

/-- Every store of the list is inside the mapped file. -/
def Heap.Maps (h : Heap) (l : List Store) : Prop :=
  ∀ st ∈ l, st.Mapped h.binaryFile.mapBase h.binaryFile.fileMap.length

theorem Heap.persist_length (h : Heap) {l : List Store} (hl : h.Maps l) :
    (h.persist l).binaryFile.fileMap.length = h.binaryFile.fileMap.length := by
  simp only [Heap.persist]
  apply length_applyWrites
  intro w hw
  obtain ⟨st, hst, rfl⟩ := List.mem_map.mp hw
  exact (hl st hst).fits

theorem Heap.Maps.persist {h : Heap} {l l' : List Store} (hl' : h.Maps l') (hl : h.Maps l) :
    (h.persist l).Maps l' := by
  intro st hst
  rw [h.persist_mapBase, h.persist_length hl]
  exact hl' st hst

/-- One store written back. -/
theorem Heap.writeBack_store (h : Heap) (st : Store) (hmap : h.Maps [st]) (hflag : h.flushed st.id ≠ .fenced) :
    (do
      let h ← h.doStore st
      h.acceptFence st) = .ok (h.persist [st]) := by
  have hstore := h.binaryFile.doStore_mapped st (hmap st (List.mem_singleton_self st))
  simp only [Heap.doStore, hstore, Loops.ok_bind, Heap.acceptFence]
  have hfence : (h.flushed st.id).acceptFence = .ok .fenced := by
    cases hcase : h.flushed st.id with
    | clear => rfl
    | flushing => rfl
    | fenced => exact absurd hcase hflag
  rw [hfence]
  simp only [Loops.ok_bind, Heap.persist, applyWrites, Store.write, List.map_cons, List.map_nil,
    List.foldl_cons, List.foldl_nil, Except.ok.injEq, Heap.mk.injEq, true_and]
  funext i
  by_cases hi : i = st.id
  · subst hi
    simp
  · simp [hi]

/-- A loop that writes back each store of a list. -/
theorem writeBack_loop (body : Heap → Store → Except ReplayError Heap) (l : List Store) (h : Heap)
    (hnodup : (l.map (·.id)).Nodup) (hmap : h.Maps l)
    (hbody : ∀ h' st, st ∈ l → h'.Maps [st] → h'.flushed st.id = h.flushed st.id →
      body h' st = .ok (h'.persist [st])) :
    l.foldlM body h = .ok (h.persist l) := by
  induction l generalizing h with
  | nil =>
      rw [h.persist_nil]
      rfl
  | cons st l ih =>
      obtain ⟨hst, hnodup⟩ := List.nodup_cons.mp hnodup
      have hfirst : h.Maps [st] := fun s hs => hmap s (by rw [List.mem_singleton.mp hs]; exact List.mem_cons_self)
      have hne : ∀ s ∈ l, ∀ s' ∈ [st], s'.id ≠ s.id := by
        intro s hs s' hs' heq
        rw [List.mem_singleton.mp hs'] at heq
        exact hst (List.mem_map.mpr ⟨s, hs, heq.symm⟩)
      rw [Loops.foldlM_cons_ok (hbody h st List.mem_cons_self hfirst rfl)]
      have hrest : h.Maps l := fun s hs => hmap s (List.mem_cons_of_mem st hs)
      rw [ih (h.persist [st]) hnodup (hrest.persist hfirst) ?_, ← h.persist_append]
      · rfl
      · intro h' s hs hmaps hflag
        rw [h.persist_flushed_of_not_mem (hne s hs)] at hflag
        exact hbody h' s (List.mem_cons_of_mem st hs) hmaps hflag

/-! ### One line -/

theorem WitcherCacheline.writeBackAllFlushingStores_spec (h : Heap) (l : WitcherCacheline)
    (flushing clear : List Store) (hstores : l.storesList = flushing ++ clear)
    (hflushing : ∀ st ∈ flushing, h.flushed st.id = .flushing)
    (hclear : ∀ st ∈ clear, h.flushed st.id = .clear)
    (hnodup : ((flushing ++ clear).map (·.id)).Nodup) (hmap : h.Maps (flushing ++ clear)) :
    l.writeBackAllFlushingStores h = .ok (h.persist flushing, { l with storesList := clear }) := by
  rw [List.map_append, List.nodup_append] at hnodup
  obtain ⟨hnodup, _, hdisj⟩ := hnodup
  have hkeep : ∀ st ∈ clear, (h.persist flushing).flushed st.id = .clear := by
    intro st hst
    rw [h.persist_flushed_of_not_mem, hclear st hst]
    intro s hs heq
    exact hdisj s.id (List.mem_map_of_mem hs) st.id (List.mem_map_of_mem hst) heq
  have hmapF : h.Maps flushing := fun st hst => hmap st (List.mem_append_left _ hst)
  simp only [writeBackAllFlushingStores, hstores]
  rw [Loops.foldlM_append_ok (writeBack_loop _ flushing h hnodup hmapF ?_)]
  · -- the clear stores are skipped by the loop and kept by the filter
    rw [Loops.foldlM_skip ?_]
    · rw [Loops.ok_bind, List.filter_append]
      have hnone : flushing.filter (h.persist flushing).isClear = [] := by
        rw [List.filter_eq_nil_iff]
        intro st hst
        simp [Heap.isClear, h.persist_flushed_of_mem hst]
      have hall : clear.filter (h.persist flushing).isClear = clear := by
        rw [List.filter_eq_self]
        intro st hst
        simp [Heap.isClear, hkeep st hst]
      rw [hnone, hall, List.nil_append]
    · intro st hst
      simp [Heap.isFlushing, hkeep st hst]
  · intro h' st hst hmaps hflag
    rw [hflushing st hst] at hflag
    simp only [Heap.isFlushing, hflag, decide_true, if_true]
    exact h'.writeBack_store st hmaps (by rw [hflag]; decide)

theorem WitcherCacheline.writeBackAllStores_spec (h : Heap) (l : WitcherCacheline)
    (hflag : ∀ st ∈ l.storesList, h.flushed st.id ≠ .fenced) (hnodup : (l.storesList.map (·.id)).Nodup)
    (hmap : h.Maps l.storesList) :
    l.writeBackAllStores h = .ok (h.persist l.storesList, { l with storesList := [] }) := by
  rw [writeBackAllStores, writeBack_loop _ l.storesList h hnodup hmap]
  · rfl
  · intro h' st hst hmaps hsame
    exact h'.writeBack_store st hmaps (by rw [hsame]; exact hflag st hst)

/-! ### All lines -/

/-- A loop over lines that persists `persisted` of each and keeps `kept`. Its body is only asked to
work on heaps that agree with the initial one on the line's own pending stores. -/
theorem traverse_persist (f : Heap → WitcherCacheline → Except ReplayError (Heap × WitcherCacheline))
    (persisted pending kept : Nat → List Store) (es : List (Nat × WitcherCacheline)) (h : Heap)
    (hkeys : (es.map Prod.fst).Nodup)
    (hdisj : ∀ e ∈ es, ∀ e' ∈ es, e.1 ≠ e'.1 → ∀ st ∈ persisted e.1, ∀ st' ∈ pending e'.1, st.id ≠ st'.id)
    (hmap : ∀ e ∈ es, h.Maps (persisted e.1))
    (hf : ∀ e ∈ es, ∀ h' : Heap, (∀ st ∈ pending e.1, h'.flushed st.id = h.flushed st.id) →
      h'.binaryFile.mapBase = h.binaryFile.mapBase →
      h'.binaryFile.fileMap.length = h.binaryFile.fileMap.length →
      f h' e.2 = .ok (h'.persist (persisted e.1), { e.2 with storesList := kept e.1 })) :
    Dict.traverseEntries f h es = .ok (h.persist (es.flatMap fun e => persisted e.1),
      es.map fun e => (e.1, { e.2 with storesList := kept e.1 })) := by
  induction es generalizing h with
  | nil =>
      rw [List.flatMap_nil, h.persist_nil]
      rfl
  | cons e es ih =>
      obtain ⟨a, l⟩ := e
      obtain ⟨ha, hkeys⟩ := List.nodup_cons.mp hkeys
      have hfirst := hf (a, l) List.mem_cons_self h (fun _ _ => rfl) rfl rfl
      have hmapFirst := hmap (a, l) List.mem_cons_self
      have hne : ∀ e ∈ es, a ≠ e.1 := by
        intro e he heq
        exact ha (List.mem_map.mpr ⟨e, he, heq.symm⟩)
      -- the stores of the remaining lines look the same before and after the first line
      have hsame : ∀ e ∈ es, ∀ st ∈ pending e.1, (h.persist (persisted a)).flushed st.id = h.flushed st.id := by
        intro e he st hst
        apply h.persist_flushed_of_not_mem
        intro s hs
        exact hdisj (a, l) List.mem_cons_self e (List.mem_cons_of_mem _ he) (hne e he) s hs st hst
      have hrest := ih (h.persist (persisted a)) hkeys
        (fun e he e' he' => hdisj e (List.mem_cons_of_mem _ he) e' (List.mem_cons_of_mem _ he'))
        (fun e he => (hmap e (List.mem_cons_of_mem _ he)).persist hmapFirst) ?_
      · rw [Dict.traverseEntries, hfirst, Loops.ok_bind]
        simp only [hrest, Loops.ok_bind, List.flatMap_cons, List.map_cons, h.persist_append]
      · intro e he h' hflag hbase hlen
        refine hf e (List.mem_cons_of_mem _ he) h' ?_ hbase ?_
        · intro st hst
          rw [hflag st hst, hsame e he st hst]
        · rw [hlen, h.persist_length hmapFirst]

/-- Deleting lines one after the other. -/
theorem delete_loop (ls : List WitcherCacheline) (d : Dict Nat WitcherCacheline)
    (hnodup : (ls.map (·.address)).Nodup) (hpresent : ∀ l ∈ ls, (d.get? l.address).isSome) :
    ∃ d', ls.foldlM WitcherCache.delete d = .ok d' ∧
      ∀ a, d'.get? a = if a ∈ ls.map (·.address) then none else d.get? a := by
  induction ls generalizing d with
  | nil => exact ⟨d, rfl, fun a => by simp⟩
  | cons l ls ih =>
      obtain ⟨hl, hnodup⟩ := List.nodup_cons.mp hnodup
      have hdelete : WitcherCache.delete d l = .ok (d.erase l.address) :=
        if_pos (hpresent l List.mem_cons_self)
      obtain ⟨d', hd', hget⟩ := ih (d.erase l.address) hnodup (by
        intro k hk
        have hne : k.address ≠ l.address := fun heq => hl (List.mem_map.mpr ⟨k, hk, heq⟩)
        rw [d.get?_erase, if_neg hne]
        exact hpresent k (List.mem_cons_of_mem l hk))
      refine ⟨d', by rw [Loops.foldlM_cons_ok hdelete, hd'], ?_⟩
      intro a
      rw [hget a, d.get?_erase]
      by_cases ha : a = l.address <;> simp [ha]

/-- The stores of one line among those collected from all lines. -/
theorem filter_flatMap_line (g : Nat → List Store) (keys : List Nat) (hkeys : keys.Nodup)
    (hline : ∀ k ∈ keys, ∀ st ∈ g k, st.line = k) (a : Nat) :
    (keys.flatMap g).filter (fun st => st.line = a) = if a ∈ keys then g a else [] := by
  induction keys with
  | nil => simp
  | cons k keys ih =>
      obtain ⟨hk, hkeys⟩ := List.nodup_cons.mp hkeys
      have hrest := ih hkeys fun k' hk' => hline k' (List.mem_cons_of_mem k hk')
      have hhead : (g k).filter (fun st => st.line = a) = if a = k then g k else [] := by
        split_ifs with hak
        · rw [List.filter_eq_self]
          intro st hst
          simp [hline k List.mem_cons_self st hst, hak]
        · rw [List.filter_eq_nil_iff]
          intro st hst
          simp [hline k List.mem_cons_self st hst, Ne.symm hak]
      rw [List.flatMap_cons, List.filter_append, hhead, hrest]
      by_cases hak : a = k
      · subst hak
        simp [hk]
      · simp [hak]

end Witcher
