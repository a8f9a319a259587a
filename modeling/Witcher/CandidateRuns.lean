import Witcher.CandidateQueue

/-! Replaying a transaction with its crash candidates. From any cache that refines a memory, the loop
over the transaction's operations never raises; at each fence it validates exactly the plans of the
original candidate list, each on the image that line persistency gives. -/

namespace Witcher

open Bytes Persistency WitcherCrashManager

/-! ### What the memory decides -/

namespace Refines

variable {f₀ : BinaryFile} {hist : List Store} {m : Memory Nat Store} {c : WitcherCache}

/-- The fenced ids are those of the persisted stores. -/
theorem flushed_eq_fenced_iff (h : Refines f₀ hist m c) (i : Nat) :
    c.heap.flushed i = .fenced ↔ ∃ a, ∃ st ∈ (m a).persisted, st.id = i := by
  constructor
  · intro hfenced
    by_cases hknown : ∃ st ∈ hist, st.id = i
    · obtain ⟨st, hst, rfl⟩ := hknown
      exact ⟨st.line, st, (h.fenced_iff hst).mp hfenced, rfl⟩
    · rw [h.fresh i fun st hst hid => hknown ⟨st, hst, hid⟩] at hfenced
      cases hfenced
  · rintro ⟨a, st, hst, rfl⟩
    exact h.persisted a st hst

theorem isFenced_iff (h : Refines f₀ hist m c) (st : Store) :
    c.heap.isFenced st = true ↔ ∃ a, ∃ s ∈ (m a).persisted, s.id = st.id := by
  rw [Heap.isFenced, decide_eq_true_eq, h.flushed_eq_fenced_iff]

theorem pending_of_volatile (h : Refines f₀ hist m c) {st : Store} (hst : st ∈ hist)
    (hvolatile : c.heap.isFenced st = false) : st ∈ (m st.line).pending := by
  have hmem : st ∈ (m st.line).stores := h.mem_stores.mpr ⟨hst, rfl⟩
  rcases List.mem_append.mp hmem with hmem | hmem
  · rw [Heap.isFenced, h.persisted _ st hmem] at hvolatile
    cases hvolatile
  · exact hmem

/-- Two caches that refine one memory have the same `flushed` fields and the same file. -/
theorem flushed_unique {c' : WitcherCache} (h : Refines f₀ hist m c) (h' : Refines f₀ hist m c') :
    c.heap.flushed = c'.heap.flushed := by
  funext i
  by_cases hknown : ∃ st ∈ hist, st.id = i
  · obtain ⟨st, hst, rfl⟩ := hknown
    have hmem : st ∈ (m st.line).stores := h.mem_stores.mpr ⟨hst, rfl⟩
    rcases List.mem_append.mp hmem with hmem | hmem
    · rw [h.persisted _ st hmem, h'.persisted _ st hmem]
    · rcases List.mem_append.mp hmem with hmem | hmem
      · rw [h.flushing _ st hmem, h'.flushing _ st hmem]
      · rw [h.clear _ st hmem, h'.clear _ st hmem]
  · have hnew : ∀ st ∈ hist, st.id ≠ i := fun st hst hid => hknown ⟨st, hst, hid⟩
    rw [h.fresh i hnew, h'.fresh i hnew]

theorem file_unique {c' : WitcherCache} (h : Refines f₀ hist m c) (h' : Refines f₀ hist m c') :
    c.heap.binaryFile.fileMap = c'.heap.binaryFile.fileMap := by
  apply List.ext_getElem?
  intro i
  rw [h.file i, h'.file i]

end Refines

/-! ### The setting -/

/-- The operations of a transaction with its candidates, after the stores `hist`. -/
structure TxSetting (f₀ : BinaryFile) (hist : List Store) (ops : List Op) (candidates : List CrashCandidate) :
    Prop where
  ids : (ops.map Op.id).Pairwise (· < ·)
  replayable : ∀ op ∈ ops, op.Replayable f₀.mapBase f₀.fileMap.length
  nodup : ((hist ++ storesOf ops).map (·.id)).Nodup
  candidates : TxCandidates (storesOf ops) candidates

namespace TxSetting

variable {f₀ : BinaryFile} {hist : List Store} {ops done rest : List Op} {op : Op} {candidates : List CrashCandidate}

theorem id_lt_of_mem (h : TxSetting f₀ hist ops candidates) (hsplit : ops = done ++ op :: rest) {op' : Op}
    (hop' : op' ∈ done) : op'.id < op.id := by
  have hids := h.ids
  rw [hsplit, List.map_append, List.map_cons, List.pairwise_append] at hids
  exact hids.2.2 op'.id (List.mem_map_of_mem hop') op.id List.mem_cons_self

theorem lt_id_of_mem (h : TxSetting f₀ hist ops candidates) (hsplit : ops = done ++ op :: rest) {op' : Op}
    (hop' : op' ∈ rest) : op.id < op'.id := by
  have hids := h.ids
  rw [hsplit, List.map_append, List.map_cons, List.pairwise_append, List.pairwise_cons] at hids
  exact hids.2.1.1 op'.id (List.mem_map_of_mem hop')

/-- A store of the transaction with a smaller id than a fence has been replayed before it. -/
theorem mem_done (h : TxSetting f₀ hist ops candidates) {b : BaseOperation} (hsplit : ops = done ++ .fence b :: rest)
    {st : Store} (hst : st ∈ storesOf ops) (hlt : st.id < b.id) : st ∈ storesOf done := by
  rw [mem_storesOf, hsplit] at hst
  rcases List.mem_append.mp hst with hst | hst
  · exact mem_storesOf.mpr hst
  · rcases List.mem_cons.mp hst with hst | hst
    · cases hst
    · have hgt := h.lt_id_of_mem hsplit hst
      simp only [Op.id_fence, Op.id_store] at hgt
      omega

theorem id_ne_fence (h : TxSetting f₀ hist ops candidates) {b : BaseOperation}
    (hsplit : ops = done ++ .fence b :: rest) {st : Store} (hst : st ∈ storesOf ops) : st.id ≠ b.id := by
  rw [mem_storesOf, hsplit] at hst
  rcases List.mem_append.mp hst with hst | hst
  · have hlt := h.id_lt_of_mem hsplit hst
    simp only [Op.id_fence, Op.id_store] at hlt
    omega
  · rcases List.mem_cons.mp hst with hst | hst
    · cases hst
    · have hgt := h.lt_id_of_mem hsplit hst
      simp only [Op.id_fence, Op.id_store] at hgt
      omega

end TxSetting

/-- The manager after the operations `done` of the transaction, having started from the memory `m`. -/
structure TxRun (f₀ : BinaryFile) (hist : List Store) (m : Memory Nat Store) (ops : List Op) (txIndex : Nat)
    (candidates : List CrashCandidate) (done : List Op) (s : WitcherCrashManager) : Prop where
  refines : Refines f₀ (hist ++ storesOf done) (m.run (eventsOf done)) s.cache
  queue : ∃ queue, s.crashCandidatesPerTx.get? txIndex = some queue ∧
    QueueInv s.cache.heap.isFenced done candidates queue
  fenced : ∀ st ∈ storesOf ops, s.cache.heap.isFenced st = true → ∃ b, Op.fence b ∈ done ∧ st.id < b.id

/-- What the validator is given when the loop reaches `op`. -/
def crashStatesAt (mapBase : Nat) (h : Heap) (m : Memory Nat Store) (candidates : List CrashCandidate)
    (txIndex : Nat) : Op → List CrashState
  | .fence b => (naivePlans h.isFenced b.id (.fence b) candidates).map fun plan =>
      ⟨txIndex, b.id, plan, planImage mapBase h.binaryFile.fileMap m plan⟩
  | _ => []

namespace TxRun

variable {f₀ : BinaryFile} {hist : List Store} {m : Memory Nat Store} {ops done rest : List Op} {txIndex : Nat}
  {candidates : List CrashCandidate} {s : WitcherCrashManager}

theorem init (hset : TxSetting f₀ hist ops candidates) (href : Refines f₀ hist m s.cache)
    (hqueue : s.crashCandidatesPerTx.get? txIndex = some candidates) :
    TxRun f₀ hist m ops txIndex candidates [] s where
  refines := by simpa [storesOf, eventsOf] using href
  queue := ⟨candidates, hqueue, QueueInv.init _ _⟩
  fenced := by
    intro st hst hfenced
    have hnodup := hset.nodup
    rw [List.map_append, List.nodup_append] at hnodup
    have hnew : ∀ s ∈ hist, s.id ≠ st.id := fun s hs =>
      hnodup.2.2 s.id (List.mem_map_of_mem hs) st.id (List.mem_map_of_mem hst)
    simp [Heap.isFenced, href.fresh st.id hnew] at hfenced

/-- Every plan of a fence is the fence or a pending store. -/
theorem plannable (h : TxRun f₀ hist m ops txIndex candidates done s) (hset : TxSetting f₀ hist ops candidates)
    {b : BaseOperation} (hsplit : ops = done ++ .fence b :: rest) {plan : Op}
    (hplan : plan ∈ naivePlans s.cache.heap.isFenced b.id (.fence b) candidates) :
    Plannable (m.run (eventsOf done)) plan := by
  obtain ⟨x, hx, hlast, ⟨hp, _, _, rfl⟩ | ⟨_, _, rfl⟩⟩ := mem_naivePlans.mp hplan
  · have hlt : x.pStore.id < b.id := lt_of_le_of_lt (le_max_left _ _) hlast
    have hmem := hset.mem_done hsplit (hset.candidates.pStore x hx) hlt
    exact h.refines.pending_of_volatile (List.mem_append_right _ hmem) hp
  · trivial

/-- `verify_crash_candidates` at a fence: no assertion fails, and the plans are those of the original
list. -/
theorem verify (h : TxRun f₀ hist m ops txIndex candidates done s) (hset : TxSetting f₀ hist ops candidates)
    {b : BaseOperation} (hsplit : ops = done ++ .fence b :: rest) :
    ∃ queue processed,
      s.verifyCrashCandidates txIndex b.id (.fence b) =
        .ok ({ s with crashCandidatesPerTx := s.crashCandidatesPerTx.set txIndex queue },
          naivePlans s.cache.heap.isFenced b.id (.fence b) candidates, processed) ∧
      ∀ isFenced' : Store → Bool, (∀ st, s.cache.heap.isFenced st = true → isFenced' st = true) →
        QueueInv isFenced' (done ++ [.fence b]) candidates
          (processed.reverse.foldl (bringBack isFenced') queue) := by
  obtain ⟨queue, hget, hinv⟩ := h.queue
  obtain ⟨queue', processed, hloop, hback⟩ := hinv.fence hset.candidates b
    (fun st hst => hset.id_ne_fence hsplit hst) (fun b' hb' => hset.id_lt_of_mem hsplit hb') h.fenced
  refine ⟨queue', processed, ?_, hback⟩
  simp only [WitcherCrashManager.verifyCrashCandidates, hget, hloop, Loops.ok_bind]

/-- An operation other than a fence only goes through the cache. -/
theorem acceptOp_of_not_fence {c' : WitcherCache} {op : Op} (crash : Option Nat) (hop : ∀ b, op ≠ .fence b)
    (hc' : s.cache.acceptAndWriteBack op = .ok c') : s.acceptOp crash op = .ok { s with cache := c' } := by
  rw [WitcherCrashManager.acceptOp, WitcherCache.accept_of_not_fence hop hc', Loops.ok_bind]
  rfl

theorem stores_fresh (hset : TxSetting f₀ hist ops candidates) {op : Op} (hsplit : ops = done ++ op :: rest) :
    ∀ st ∈ storesOf [op], ∀ s ∈ hist ++ storesOf done, s.id ≠ st.id := by
  intro st hst s hs
  have hstores : storesOf ops = storesOf done ++ (storesOf [op] ++ storesOf rest) := by
    rw [hsplit, storesOf_append, ← storesOf_append [op] rest]
    rfl
  have hnodup := hset.nodup
  rw [hstores, ← List.append_assoc, List.map_append, List.nodup_append] at hnodup
  exact hnodup.2.2 s.id (List.mem_map_of_mem hs) st.id
    (List.mem_map_of_mem (List.mem_append_left _ hst))

/-- One iteration of the loop. -/
theorem step (h : TxRun f₀ hist m ops txIndex candidates done s) (hset : TxSetting f₀ hist ops candidates)
    {op : Op} (hsplit : ops = done ++ op :: rest) :
    ∃ s', s.acceptOp (some txIndex) op = .ok s' ∧ TxRun f₀ hist m ops txIndex candidates (done ++ [op]) s' ∧
      s'.tested = s.tested ++
        crashStatesAt f₀.mapBase s.cache.heap (m.run (eventsOf done)) candidates txIndex op ∧
      ∀ t, t ≠ txIndex → s'.crashCandidatesPerTx.get? t = s.crashCandidatesPerTx.get? t := by
  have hop : op.Replayable f₀.mapBase f₀.fileMap.length := hset.replayable op (by rw [hsplit]; simp)
  have hevents : m.run (eventsOf (done ++ [op])) = (m.run (eventsOf done)).run op.events := by
    rw [eventsOf_append, Memory.run_append]
    simp [eventsOf]
  have hstores : hist ++ storesOf (done ++ [op]) = hist ++ storesOf done ++ storesOf [op] := by
    rw [storesOf_append, List.append_assoc]
  by_cases hcase : ∃ b, op = .fence b
  · obtain ⟨b, rfl⟩ := hcase
    obtain ⟨queue, processed, hverify, hback⟩ := h.verify hset hsplit
    have hvalidate := h.refines.validate txIndex b.id (naivePlans s.cache.heap.isFenced b.id (.fence b) candidates)
      fun plan hplan => h.plannable hset hsplit hplan
    obtain ⟨c₂, hwrite, href₂⟩ := h.refines.writeBackAllFlushingStores
    have hmono : ∀ st, s.cache.heap.isFenced st = true → c₂.heap.isFenced st = true := by
      intro st hst
      obtain ⟨a, s', hs', hid⟩ := (h.refines.isFenced_iff st).mp hst
      exact (href₂.isFenced_iff st).mpr ⟨a, s', List.mem_append_left _ hs', hid⟩
    refine ⟨⟨c₂, (s.crashCandidatesPerTx.set txIndex queue).set txIndex
      (processed.reverse.foldl (bringBack c₂.heap.isFenced) queue), _⟩, ?_, ⟨?_, ⟨_, ?_, hback _ hmono⟩, ?_⟩, rfl, ?_⟩
    · simp only [WitcherCrashManager.acceptOp, WitcherCache.accept, Loops.ok_bind, if_true,
        WitcherCrashManager.tryCrashCandidates, Op.id_fence, hverify, hvalidate,
        WitcherCrashManager.writeBackAllFlushingStores, hwrite, WitcherCrashManager.bringBackPotentialCandidates,
        Dict.get?_set]
      rfl
    · rw [hevents, hstores]
      simpa [storesOf, Op.events] using href₂
    · rw [Dict.get?_set, if_pos rfl]
    · intro st hst hfenced
      by_cases hknown : st ∈ storesOf done
      · have hlt := hset.id_lt_of_mem hsplit (mem_storesOf.mp hknown)
        exact ⟨b, by simp, hlt⟩
      · -- a store that has not been replayed yet cannot be fenced
        obtain ⟨a, s', hs', hid⟩ := (href₂.isFenced_iff st).mp hfenced
        have hmem := (href₂.mem_stores.mp (List.mem_append_left _ hs')).1
        have hnodup := hset.nodup
        have hboth : s' = st := by
          refine List.inj_on_of_nodup_map hnodup ?_ (List.mem_append_right _ hst) hid
          rcases List.mem_append.mp hmem with hmem | hmem
          · exact List.mem_append_left _ hmem
          · rw [hsplit, storesOf_append]
            exact List.mem_append_right _ (List.mem_append_left _ hmem)
        rcases List.mem_append.mp hmem with hmem | hmem
        · rw [List.map_append, List.nodup_append] at hnodup
          exact absurd hid (hnodup.2.2 s'.id (List.mem_map_of_mem hmem) st.id (List.mem_map_of_mem hst))
        · rw [hboth] at hmem
          exact absurd hmem hknown
    · intro t ht
      rw [Dict.get?_set, if_neg ht, Dict.get?_set, if_neg ht]
  · have hop' : ∀ b, op ≠ .fence b := fun b hb => hcase ⟨b, hb⟩
    obtain ⟨c', hc', href'⟩ := h.refines.acceptAndWriteBack op hop (stores_fresh hset hsplit)
    obtain ⟨queue, hget, hinv⟩ := h.queue
    have hsame : ∀ st, c'.heap.isFenced st = s.cache.heap.isFenced st := by
      intro st
      rw [Bool.eq_iff_iff, href'.isFenced_iff, h.refines.isFenced_iff]
      simp only [Op.persisted_run hop']
    refine ⟨{ s with cache := c' }, acceptOp_of_not_fence _ hop' hc', ⟨?_, ⟨queue, hget, hinv.skip hop' hsame⟩, ?_⟩,
      ?_, fun _ _ => rfl⟩
    · rw [hevents, hstores]
      exact href'
    · intro st hst hfenced
      simp only [hsame] at hfenced
      obtain ⟨b, hb, hlt⟩ := h.fenced st hst hfenced
      exact ⟨b, List.mem_append_left _ hb, hlt⟩
    · cases op with
      | fence b => exact absurd rfl (hop' b)
      | _ => simp [crashStatesAt]

end TxRun

end Witcher
