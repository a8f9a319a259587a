import Witcher.CacheRuns

/-! Construction of crash states (`engines/witcher/witchercrashvalidator.py`). A crash plan is a store
of the trace or a fence; its crash state is the replayed file with, for a store, the stores of its
line up to and including it applied. -/

namespace Witcher

open Bytes Persistency

/-- One call of `check_consistency`: the plan it is for and the file it is given. -/
structure CrashState where
  txIndex : Nat
  fenceIndex : Nat
  crashPlan : Op
  pmFile : List UInt8
  deriving DecidableEq, Repr

namespace WitcherCrashValidator

/-- `construct_crash_state`: copy the replayed file, then persist the plan on the copy. -/
def constructCrashState (c : WitcherCache) : Op → Except ReplayError (WitcherCache × List UInt8)
  | .fence _ => .ok (c, c.heap.binaryFile.fileMap)
  | .store plan => do
      let crashFile := BinaryFile.new c.heap.binaryFile.mapBase c.heap.binaryFile.fileMap
      let (c, storesToBePersisted) ← c.getStoresFromCrashPlan plan
      let crashFile ← storesToBePersisted.foldlM BinaryFile.doStore crashFile
      .ok (c, crashFile.fileMap)
  | _ => .error .assertion

/-- One iteration of `validate`. -/
def validatePlan (txIndex fenceIndex : Nat) (s : WitcherCache × List CrashState) (plan : Op) :
    Except ReplayError (WitcherCache × List CrashState) := do
  let (c, pmFile) ← constructCrashState s.1 plan
  .ok (c, s.2 ++ [⟨txIndex, fenceIndex, plan, pmFile⟩])

/-- The plans of a set are validated one by one; the states given to `check_consistency` are
returned in that order. -/
def validate (c : WitcherCache) (txIndex fenceIndex : Nat) (crashPlans : List Op) :
    Except ReplayError (WitcherCache × List CrashState) :=
  crashPlans.foldlM (validatePlan txIndex fenceIndex) (c, [])

end WitcherCrashValidator

/-! ### The stores of a plan -/

theorem findIdx?_append_cons (front back : List Store) (st : Store) (h : ∀ s ∈ front, s.id ≠ st.id) :
    (front ++ st :: back).findIdx? (fun s => s.id = st.id) = some front.length := by
  induction front with
  | nil => simp [List.findIdx?_cons]
  | cons s front ih =>
      have hhead : s.id ≠ st.id := h s List.mem_cons_self
      rw [List.cons_append, List.findIdx?_cons, ih fun s' hs' => h s' (List.mem_cons_of_mem s hs')]
      simp [hhead]

theorem takeWhile_ne_id {front back : List Store} {st : Store} (h : ((front ++ st :: back).map (·.id)).Nodup) :
    (front ++ st :: back).takeWhile (fun s => s.id ≠ st.id) = front := by
  rw [List.map_append, List.map_cons, List.nodup_append] at h
  have hfront : ∀ s ∈ front, decide (s.id ≠ st.id) = true := fun s hs =>
    decide_eq_true (h.2.2 s.id (List.mem_map_of_mem hs) st.id List.mem_cons_self)
  rw [List.takeWhile_append_of_pos hfront, List.takeWhile_cons_of_neg (by simp), List.append_nil]

/-- The line of a pending store gives the store and those before it. -/
theorem WitcherCacheline.getStoresFromCrashPlan_spec {l : WitcherCacheline} {front back : List Store} {plan : Store}
    (hstores : l.storesList = front ++ plan :: back) (hfront : ∀ s ∈ front, s.id ≠ plan.id)
    (hcan : l.canAcceptStoreOp plan = true) : l.getStoresFromCrashPlan plan = .ok (front ++ [plan]) := by
  rw [getStoresFromCrashPlan, hcan, assert_true, Loops.ok_bind, hstores, findIdx?_append_cons front back plan hfront]
  simp [List.take_append, List.take_of_length_le]

/-- Writing a list of mapped stores to a file. -/
theorem BinaryFile.doStore_loop (f : BinaryFile) (l : List Store)
    (hmap : ∀ st ∈ l, st.Mapped f.mapBase f.fileMap.length) :
    ∃ f', l.foldlM BinaryFile.doStore f = .ok f' ∧
      f'.fileMap = applyWrites f.fileMap (l.map (Store.write f.mapBase)) := by
  induction l generalizing f with
  | nil => exact ⟨f, rfl, rfl⟩
  | cons st l ih =>
      have hst := hmap st List.mem_cons_self
      have hlen : (patch f.fileMap (st.address - f.mapBase) st.valueBytes).length = f.fileMap.length :=
        length_patch _ _ _ hst.fits
      obtain ⟨f', hrun, hfile⟩ := ih
        { f with
          fileMap := patch f.fileMap (st.address - f.mapBase) st.valueBytes
          written := f.written ++ [st.id] }
        (by
          intro s hs
          simp only [hlen]
          exact hmap s (List.mem_cons_of_mem st hs))
      exact ⟨f', by rw [Loops.foldlM_cons_ok (f.doStore_mapped st hst), hrun], hfile⟩

/-! ### Crash states in terms of line persistency -/

/-- What can be a plan: a fence, or a store that is pending. -/
def Plannable (m : Memory Nat Store) : Op → Prop
  | .fence _ => True
  | .store plan => plan ∈ (m plan.line).pending
  | _ => False

/-- What a plan puts on top of the replayed file: the leading part of its line that ends at it, and
nothing at a fence. -/
def planStores (m : Memory Nat Store) : Op → List Store
  | .store plan => (m plan.line).pending.takeWhile (fun st => st.id ≠ plan.id) ++ [plan]
  | _ => []

/-- The image of a plan over the replayed file. -/
def planImage (mapBase : Nat) (file : List UInt8) (m : Memory Nat Store) (plan : Op) : List UInt8 :=
  applyWrites file ((planStores m plan).map (Store.write mapBase))

namespace Refines

variable {f₀ : BinaryFile} {hist : List Store} {m : Memory Nat Store} {c : WitcherCache}

/-- The stores of a pending plan are a leading part of its line's pending stores. -/
theorem planStores_split (h : Refines f₀ hist m c) {plan : Store} (hplan : plan ∈ (m plan.line).pending) :
    ∃ back, (m plan.line).pending =
      (m plan.line).pending.takeWhile (fun st => st.id ≠ plan.id) ++ plan :: back := by
  obtain ⟨front, back, hsplit⟩ := List.append_of_mem hplan
  have hnodup := h.pending_nodup plan.line
  rw [hsplit] at hnodup
  exact ⟨back, by rw [hsplit, takeWhile_ne_id hnodup]⟩

theorem planStores_pending (h : Refines f₀ hist m c) {plan : Store} (hplan : plan ∈ (m plan.line).pending)
    {st : Store} (hst : st ∈ planStores m (.store plan)) : st ∈ (m plan.line).pending := by
  obtain ⟨back, hsplit⟩ := h.planStores_split hplan
  rw [hsplit]
  rcases List.mem_append.mp hst with hst | hst
  · exact List.mem_append_left _ hst
  · rw [List.mem_singleton.mp hst]
    exact List.mem_append_right _ List.mem_cons_self

/-- Looking up the stores of a pending plan leaves the cache as it is. -/
theorem getStoresFromCrashPlan (h : Refines f₀ hist m c) {plan : Store} (hplan : plan ∈ (m plan.line).pending) :
    c.getStoresFromCrashPlan plan = .ok (c, planStores m (.store plan)) := by
  obtain ⟨back, hsplit⟩ := h.planStores_split hplan
  have hinLine := h.inLine plan (h.pending_hist hplan).1
  cases hget : c.cachelineDict.get? (getCachelineAddress plan.address) with
  | none =>
      rw [Store.line, h.absent _ hget] at hplan
      cases hplan
  | some l =>
      have hl : l = ⟨plan.line, cachelineBytes, (m plan.line).pending⟩ := h.line _ l hget
      have hstores := WitcherCacheline.getStoresFromCrashPlan_spec
        (l := ⟨plan.line, cachelineBytes, (m plan.line).pending⟩) hsplit
        (fun st hst => of_decide_eq_true (List.all_eq_true.mp List.all_takeWhile st hst)) (hinLine.canAccept _)
      simp only [WitcherCache.getStoresFromCrashPlan, WitcherCache.getCachelineFromAddress, hget, hl, hstores,
        Loops.ok_bind]
      rfl

/-- A plan gives its crash state, and the cache stays as it is. -/
theorem constructCrashState (h : Refines f₀ hist m c) {plan : Op} (hplan : Plannable m plan) :
    WitcherCrashValidator.constructCrashState c plan =
      .ok (c, planImage f₀.mapBase c.heap.binaryFile.fileMap m plan) := by
  cases plan with
  | fence b => rfl
  | store plan =>
      obtain ⟨f', hrun, hfile⟩ := BinaryFile.doStore_loop
        (BinaryFile.new c.heap.binaryFile.mapBase c.heap.binaryFile.fileMap) (planStores m (.store plan))
        (h.maps fun st hst => (h.pending_hist (h.planStores_pending hplan hst)).1)
      simp only [WitcherCrashValidator.constructCrashState, h.getStoresFromCrashPlan hplan, Loops.ok_bind, hrun, hfile]
      rw [planImage, BinaryFile.new, h.mapBase]
  | txStart b => cases hplan
  | txEnd b => cases hplan
  | pmdkCall b => cases hplan
  | pmdkTXAdd b => cases hplan
  | pmdkTXAlloc b => cases hplan
  | flush f => cases hplan

/-- The crash states of a list of plans. -/
theorem validate (h : Refines f₀ hist m c) (txIndex fenceIndex : Nat) (plans : List Op)
    (hplans : ∀ plan ∈ plans, Plannable m plan) :
    WitcherCrashValidator.validate c txIndex fenceIndex plans =
      .ok (c, plans.map fun plan =>
        ⟨txIndex, fenceIndex, plan, planImage f₀.mapBase c.heap.binaryFile.fileMap m plan⟩) := by
  obtain ⟨s, hrun, hs⟩ : ∃ s,
      plans.foldlM (WitcherCrashValidator.validatePlan txIndex fenceIndex) (c, []) = .ok s ∧
      s = (c, plans.map fun plan =>
        ⟨txIndex, fenceIndex, plan, planImage f₀.mapBase c.heap.binaryFile.fileMap m plan⟩) := by
    refine Loops.foldlM_induction plans (c, []) rfl ?_
      (motive := fun (done : List Op) (s : WitcherCache × List CrashState) => s = (c, done.map fun plan =>
        ⟨txIndex, fenceIndex, plan, planImage f₀.mapBase c.heap.binaryFile.fileMap m plan⟩))
    rintro done plan rest s hsplit rfl
    have hplan := h.constructCrashState (hplans plan (by rw [hsplit]; simp))
    refine ⟨_, ?_, rfl⟩
    simp only [WitcherCrashValidator.validatePlan, hplan, Loops.ok_bind, List.map_append, List.map_singleton]
  rw [WitcherCrashValidator.validate, hrun, hs]

end Refines

end Witcher
