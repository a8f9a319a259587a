import Witcher.WorkerReplay

/-! The crash images of a transaction. Each is a state the memory could be in at the fence: the
replayed file with a leading part of one line's pending stores on top. And each realises a candidate:
its persistent store is in the image, its volatile store is not. -/

namespace Witcher

open Bytes Persistency WitcherCrashManager WitcherParallelCrashManager

/-- `image` is `file` with `applied` on top: nothing for a fence, and for a store the leading part of
its line's pending stores that ends at it. -/
structure FeasibleImage (mapBase : Nat) (file : List UInt8) (pending : Nat → List Store) (plan : Op)
    (applied : List Store) (image : List UInt8) : Prop where
  image_eq : image = applyWrites file (applied.map (Store.write mapBase))
  plan_cases :
    (∃ b, plan = .fence b ∧ applied = []) ∨
    ∃ st front back, plan = .store st ∧ pending st.line = front ++ st :: back ∧ applied = front ++ [st]

theorem Refines.feasibleImage {f₀ : BinaryFile} {hist : List Store} {m : Memory Nat Store} {c : WitcherCache}
    (h : Refines f₀ hist m c) {plan : Op} (hplan : Plannable m plan) :
    FeasibleImage f₀.mapBase c.heap.binaryFile.fileMap c.pending plan (planStores m plan)
      (planImage f₀.mapBase c.heap.binaryFile.fileMap m plan) where
  image_eq := rfl
  plan_cases := by
    cases plan with
    | fence b => exact .inl ⟨b, rfl, rfl⟩
    | store st =>
        obtain ⟨back, hsplit⟩ := h.planStores_split hplan
        exact .inr ⟨st, _, back, rfl, by rw [h.pending_eq]; exact hsplit, rfl⟩
    | _ => cases hplan

/-- Pending stores are in the order of their ids. -/
theorem Refines.pending_ids_lt {f₀ : BinaryFile} {hist : List Store} {m : Memory Nat Store} {c : WitcherCache}
    (h : Refines f₀ hist m c) (hids : (hist.map (·.id)).Pairwise (· < ·)) (a : Nat) :
    ((m a).pending.map (·.id)).Pairwise (· < ·) :=
  hids.sublist ((h.pending_sublist a).map _)

/-- A candidate that calls for a plan is realised by the plan's image. -/
theorem Refines.plan_realises {f₀ : BinaryFile} {hist : List Store} {m : Memory Nat Store} {c : WitcherCache}
    (h : Refines f₀ hist m c) (hids : (hist.map (·.id)).Pairwise (· < ·)) {b : BaseOperation}
    {x : CrashCandidate} {plan : Op} (hx : x.pStore ∈ hist) (hplan : x.Plans c.heap.isFenced (.fence b) plan) :
    x.pStore ∈ hist.filter c.heap.isFenced ++ planStores m plan ∧
      x.vStore ∉ hist.filter c.heap.isFenced ++ planStores m plan := by
  have hnotFile : x.vStore ∉ hist.filter c.heap.isFenced := by
    intro hmem
    rw [List.mem_filter, hplan.volatile] at hmem
    cases hmem.2
  rcases hplan with ⟨hp, hv, hline, rfl⟩ | ⟨hp, hv, rfl⟩
  · refine ⟨List.mem_append_right _ (List.mem_append_right _ (List.mem_singleton_self _)), ?_⟩
    intro hmem
    rcases List.mem_append.mp hmem with hmem | hmem
    · exact hnotFile hmem
    · -- on the plan's own line only stores up to the plan are applied
      have hpend := h.pending_of_volatile hx hp
      have hsame := (h.pending_hist (h.planStores_pending hpend hmem)).2
      have hlt : x.pStore.id < x.vStore.id := hline.resolve_right fun hne => hne hsame.symm
      obtain ⟨back, hsplit⟩ := h.planStores_split hpend
      have hsorted := h.pending_ids_lt hids x.pStore.line
      rw [hsplit, List.map_append, List.map_cons, List.pairwise_append] at hsorted
      rcases List.mem_append.mp hmem with hmem | hmem
      · have := hsorted.2.2 x.vStore.id (List.mem_map_of_mem hmem) x.pStore.id List.mem_cons_self
        omega
      · rw [List.mem_singleton.mp hmem] at hlt
        omega
  · refine ⟨List.mem_append_left _ (List.mem_filter.mpr ⟨hx, hp⟩), ?_⟩
    simpa [planStores] using hnotFile

/-- Every crash image is feasible and realises a candidate: at every fence, validating the emitted
plans never raises; each image is the replayed file with a leading part of the plan's line on top,
the file being the initial one with the fenced stores in program order; and some candidate of the
transaction has its persistent store in the image and its volatile store outside. -/
theorem validate_feasible (mapBase : Nat) (bytes : List UInt8) {entries : List TraceEntry} {trace : WitcherTrace}
    {txId start stop : Nat} {candidates : List CrashCandidate} {front back : List Op} {b : BaseOperation}
    (hextract : extractOperations entries = .ok trace) (hmapped : ∀ e ∈ entries, e.Mapped mapBase bytes.length)
    (hrange : txRange trace txId = .ok (start, stop))
    (hcand : TxCandidates (storesOf (slice trace.atomicWriteOps start (stop + 1))) candidates)
    (hfence : slice trace.atomicWriteOps start stop = front ++ .fence b :: back) :
    ∃ c s, runBeforeTarget trace txId (WitcherCache.new (BinaryFile.new mapBase bytes)) = .ok c ∧
      front.foldlM (acceptOp (some txId)) ⟨c, Dict.empty.set txId candidates, []⟩ = .ok s ∧
      (∀ i : Nat, s.cache.heap.binaryFile.fileMap[i]? =
        (lastWrite (((storesOf (slice trace.atomicWriteOps 0 start ++ front)).filter s.cache.heap.isFenced).map
          (Store.write mapBase)) i).or bytes[i]?) ∧
      ∃ s' plans processed, s.verifyCrashCandidates txId b.id (.fence b) = .ok (s', plans, processed) ∧
      ∃ c' states, WitcherCrashValidator.validate s'.cache txId b.id plans = .ok (c', states) ∧
        states.map (·.crashPlan) = plans ∧
        ∀ state ∈ states, ∃ applied,
          FeasibleImage mapBase s.cache.heap.binaryFile.fileMap s.cache.pending state.crashPlan applied
            state.pmFile ∧
          ∃ x ∈ candidates,
            x.pStore ∈ (storesOf (slice trace.atomicWriteOps 0 start ++ front)).filter s.cache.heap.isFenced ++
              applied ∧
            x.vStore ∉ (storesOf (slice trace.atomicWriteOps 0 start ++ front)).filter s.cache.heap.isFenced ++
              applied := by
  have hvalid := WitcherTrace.Valid.of_entries hextract hmapped
  have hset := txSetting hvalid hrange hcand
  obtain ⟨_, c, s, _, hbefore, hrun, hs⟩ := TxRun.worker hvalid hrange hcand hfence
  obtain ⟨queue, processed, hverify, _⟩ := hs.verify hset hfence
  have hplannable : ∀ plan ∈ naivePlans s.cache.heap.isFenced b.id (.fence b) candidates, Plannable _ plan :=
    fun plan hplan => hs.plannable hset hfence hplan
  have hvalidate := hs.refines.validate txId b.id _ hplannable
  have href := hs.refines
  rw [← storesOf_append] at href
  have hsub : (slice trace.atomicWriteOps 0 start ++ front).Sublist trace.atomicWriteOps := by
    have htake := take_eq_slice_append trace.atomicWriteOps (start_le_stop hvalid hrange)
    rw [hfence, ← List.append_assoc] at htake
    have hfirst : (slice trace.atomicWriteOps 0 start ++ front).Sublist (trace.atomicWriteOps.take stop) := by
      rw [htake]
      exact List.sublist_append_left _ _
    exact hfirst.trans (List.take_sublist _ _)
  refine ⟨c, s, hbefore, hrun, href.file_eq_fenced, _, _, processed, hverify, _, _, hvalidate, ?_, ?_⟩
  · rw [List.map_map]
    exact List.map_id _
  · intro state hstate
    obtain ⟨plan, hplan, rfl⟩ := List.mem_map.mp hstate
    obtain ⟨x, hx, hlast, hplans⟩ := mem_naivePlans.mp hplan
    have hlt : x.pStore.id < b.id := lt_of_le_of_lt (le_max_left _ _) hlast
    have hmem := hset.mem_done hfence (hset.candidates.pStore x hx) hlt
    refine ⟨_, href.feasibleImage (hplannable plan hplan), x, hx, ?_⟩
    refine href.plan_realises (hvalid.store_ids_lt hsub) ?_ hplans
    rw [storesOf_append]
    exact List.mem_append_right _ hmem

theorem validate_feasible_reorder :
    ∃ c s, runBeforeTarget reorderTrace 0 (WitcherCache.new (BinaryFile.new 0 (List.replicate 66 0))) = .ok c ∧
      (slice reorderOps 0 4).foldlM (acceptOp (some 0)) ⟨c, Dict.empty.set 0 reorderCandidates, []⟩ = .ok s ∧
      ∃ s' processed,
        s.verifyCrashCandidates 0 4 (.fence ⟨4, 0, ""⟩) =
          .ok (s', [.store ⟨⟨2, 0, ""⟩, 64, 2, [3, 4]⟩], processed) ∧
        ∃ c', WitcherCrashValidator.validate s'.cache 0 4 [.store ⟨⟨2, 0, ""⟩, 64, 2, [3, 4]⟩] =
          .ok (c', [⟨0, 4, .store ⟨⟨2, 0, ""⟩, 64, 2, [3, 4]⟩, List.replicate 64 0 ++ [3, 4]⟩]) := by
  have hextract : extractOperations reorderEntries = .ok reorderTrace := rfl
  have hrange : txRange reorderTrace 0 = .ok (0, 6) := rfl
  have hfence : slice reorderTrace.atomicWriteOps 0 6 =
      slice reorderOps 0 4 ++ .fence ⟨4, 0, ""⟩ :: [.fence ⟨5, 0, ""⟩] := rfl
  obtain ⟨c, s, hbefore, hrun, _, s', plans, processed, hverify, c', states, hvalidate, _, _⟩ :=
    validate_feasible 0 (List.replicate 66 0) hextract (by decide) hrange reorderCandidates_spec hfence
  refine ⟨c, s, hbefore, hrun, s', processed, ?_⟩
  cases hbefore
  cases hrun
  cases hverify
  cases hvalidate
  exact ⟨rfl, _, rfl⟩

end Witcher
