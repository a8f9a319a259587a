import Witcher.FullCrashManager

/-! What the exhaustive worker validates. Each target goes to the fence whose interval of the running
sum contains it, and the offset in the interval is the mixed radix number of a choice of leading
parts, so that all targets together cover every nonempty choice at every fence once. -/

namespace Witcher

open Bytes Persistency WitcherCrashManager WitcherParallelFullCrashManager

/-! ### The image of a choice -/

namespace Refines

variable {f₀ : BinaryFile} {hist : List Store} {m : Memory Nat Store} {c : WitcherCache}

/-- The cached lines hold the pending stores of their addresses. -/
theorem map_storesList (h : Refines f₀ hist m c) :
    c.getCachelines.map (·.storesList) = c.cachelineDict.keys.map fun a => (m a).pending := by
  rw [WitcherCache.getCachelines, Dict.values, Dict.keys, List.map_map, List.map_map]
  apply List.map_congr_left
  intro e he
  rw [Function.comp, Function.comp, h.line e.1 e.2 ((c.cachelineDict.mem_entries_iff e.1 e.2).mp he)]

/-- Persisting up to the last store of a leading part persists that part. -/
theorem getStoresFromCrashPlan_take (h : Refines f₀ hist m c) {a k : Nat} {st : Store}
    (hst : ((m a).pending.take k).getLast? = some st) :
    c.getStoresFromCrashPlan st = .ok (c, (m a).pending.take k) := by
  obtain ⟨front, hfront⟩ : ∃ front, (m a).pending.take k = front ++ [st] :=
    ⟨_, (List.dropLast_append_getLast? st hst).symm⟩
  have hsplit : (m a).pending = front ++ st :: (m a).pending.drop k := by
    conv_lhs => rw [← List.take_append_drop k (m a).pending, hfront]
    simp
  have hmem : st ∈ (m a).pending := by
    rw [hsplit]
    simp
  have hline := (h.pending_hist hmem).2
  have hnodup := h.pending_nodup a
  rw [hsplit] at hnodup
  rw [← hline] at hmem
  rw [h.getStoresFromCrashPlan hmem, planStores, hline, hfront]
  congr 3
  rw [hsplit]
  exact takeWhile_ne_id hnodup

theorem addStoresToBePersisted_loop (h : Refines f₀ hist m c) (addresses ks : List Nat) (acc : List Store) :
    (choiceLast (addresses.map fun a => (m a).pending) ks).foldlM WitcherFullCrashValidator.addStoresToBePersisted (c, acc) =
      .ok (c, acc ++ choiceStores (addresses.map fun a => (m a).pending) ks) := by
  induction addresses generalizing ks acc with
  | nil =>
      simp [choiceLast, choiceStores]
      rfl
  | cons a addresses ih =>
      cases ks with
      | nil =>
          simp [choiceLast, choiceStores]
          rfl
      | cons k ks =>
          have hrest := ih ks (acc ++ (m a).pending.take k)
          simp only [choiceLast, choiceStores, List.map_cons, List.zipWith_cons_cons, List.flatten_cons,
            List.append_assoc] at hrest ⊢
          cases hlast : ((m a).pending.take k).getLast? with
          | none =>
              rw [List.getLast?_eq_none_iff] at hlast
              simpa [hlast] using hrest
          | some st =>
              rw [Option.toList_some, List.singleton_append, List.foldlM_cons,
                WitcherFullCrashValidator.addStoresToBePersisted, h.getStoresFromCrashPlan_take hlast]
              exact hrest

theorem storesToBePersisted (h : Refines f₀ hist m c) (addresses : List Nat) (ks : List Nat) :
    WitcherFullCrashValidator.storesToBePersisted c (choiceLast (addresses.map fun a => (m a).pending) ks) =
      .ok (c, choiceStores (addresses.map fun a => (m a).pending) ks) := by
  rw [WitcherFullCrashValidator.storesToBePersisted, h.addStoresToBePersisted_loop, List.nil_append]

/-- The crash state of a nonempty choice. -/
theorem constructChoice (h : Refines f₀ hist m c) (ks : List Nat)
    (hne : choiceLast (c.getCachelines.map (·.storesList)) ks ≠ []) :
    WitcherFullCrashValidator.constructCrashState c (choiceLast (c.getCachelines.map (·.storesList)) ks) =
      .ok (c, choiceImage f₀.mapBase c ks) := by
  have hpersisted := h.storesToBePersisted c.cachelineDict.keys ks
  rw [← h.map_storesList] at hpersisted
  have hmaps : c.heap.Maps (choiceStores (c.getCachelines.map (·.storesList)) ks) := by
    apply h.maps
    intro st hst
    rw [h.map_storesList] at hst
    obtain ⟨part, hpart, hst⟩ := List.mem_flatten.mp hst
    obtain ⟨i, hget⟩ := List.mem_iff_getElem?.mp hpart
    rw [List.getElem?_zipWith_eq_some] at hget
    obtain ⟨line, k, hline, _, rfl⟩ := hget
    obtain ⟨a, _, rfl⟩ := List.mem_map.mp (List.mem_of_getElem? hline)
    exact (h.pending_hist (List.mem_of_mem_take hst)).1
  obtain ⟨f', hrun, hfile⟩ := BinaryFile.doStore_loop
    (BinaryFile.new c.heap.binaryFile.mapBase c.heap.binaryFile.fileMap) _ hmaps
  have hlen : ¬(choiceLast (c.getCachelines.map (·.storesList)) ks).length = 0 := by
    rw [List.length_eq_zero_iff]
    exact hne
  simp only [WitcherFullCrashValidator.constructCrashState, if_neg hlen, hpersisted, Loops.ok_bind, hrun, hfile]
  rw [choiceImage, BinaryFile.new, h.mapBase]

end Refines

/-- A choice that persists something has a last store. -/
theorem choiceLast_ne_nil {lines : List (List Store)} {ks : List Nat} (hks : List.Forall₂ (· < ·) ks (radices lines))
    (hne : ∃ k ∈ ks, k ≠ 0) : choiceLast lines ks ≠ [] := by
  induction lines generalizing ks with
  | nil =>
      cases hks
      obtain ⟨k, hk, _⟩ := hne
      cases hk
  | cons line lines ih =>
      cases hks with
      | @cons k _ ks _ hk hks =>
          simp only [choiceLast, List.zipWith_cons_cons, List.flatten_cons, ne_eq, List.append_eq_nil_iff, not_and]
          intro hnil
          have hzero : k = 0 := by
            by_contra hpos
            have hline : line.take k ≠ [] := by
              intro hempty
              have hlt : k < line.length + 1 := hk
              have hlen := congrArg List.length hempty
              simp only [List.length_take, List.length_nil] at hlen
              omega
            rw [Option.toList_eq_nil_iff, List.getLast?_eq_none_iff] at hnil
            exact hline hnil
          obtain ⟨k', hk', hne'⟩ := hne
          rcases List.mem_cons.mp hk' with rfl | hk'
          · exact absurd hzero hne'
          · exact ih hks ⟨k', hk', hne'⟩

theorem isChoice_iff (c : WitcherCache) (ks : List Nat) :
    IsChoice c ks ↔
      List.Forall₂ (· < ·) ks (radices (c.getCachelines.map (·.storesList))) ∧ ∃ k ∈ ks, k ≠ 0 := by
  rw [IsChoice, radices, List.map_map, List.forall₂_map_right_iff]
  simp only [Function.comp, Nat.lt_succ_iff]

/-! ### One fence -/

/-- What the validator is given for target `target` at fence `b`, `low` being the running sum before
the fence. -/
def targetState (mapBase txId low : Nat) (b : BaseOperation) (c : WitcherCache) (target : Nat) : FullCrashState :=
  ⟨txId, b.id, target, choiceImage mapBase c
    (MixedRadix.digits (radices (c.getCachelines.map (·.storesList))) (target - low + 1))⟩

/-- The targets of one fence. -/
theorem Refines.validateTargets {f₀ : BinaryFile} {hist : List Store} {m : Memory Nat Store} {c : WitcherCache}
    (h : Refines f₀ hist m c) (txId low : Nat) (b : BaseOperation) (targets : List Nat)
    (hcount : permutationCount c + 1 < 2 ^ 52)
    (htargets : ∀ target ∈ targets, low ≤ target ∧ target < low + permutationCount c) :
    ∃ plans, (targets.mapM fun (target : Nat) => do
        let stores ← getStoresFromTarget c ((target : Int) - low)
        .ok (target, stores)) = (.ok plans : Except ReplayError (List (Nat × List Store))) ∧
      WitcherFullCrashValidator.validate c txId b.id plans =
        .ok (c, targets.map (targetState f₀.mapBase txId low b c)) := by
  have hprod := permutationCount_eq c
  have hpos := radices_prod_pos (c.getCachelines.map (·.storesList))
  have hstores : ∀ target ∈ targets, getStoresFromTarget c ((target : Int) - low) =
      .ok (choiceLast (c.getCachelines.map (·.storesList))
        (MixedRadix.digits (radices (c.getCachelines.map (·.storesList))) (target - low + 1))) := by
    intro target htarget
    obtain ⟨hlow, hhigh⟩ := htargets target htarget
    have hradices : (c.getCachelines.map fun l => l.storesList.length + 1) =
        radices (c.getCachelines.map (·.storesList)) := by
      rw [radices, List.map_map]
      rfl
    have hcast : (target : Int) - low + 1 = ((target - low + 1 : Nat) : Int) := by omega
    simp only [getStoresFromTarget, hradices, digitWeights_eq, hcast]
    exact storesOfDigits_eq _ (by omega) (by omega)
  refine ⟨_, Loops.mapM_ok fun target htarget => by rw [hstores target htarget]; rfl, ?_⟩
  obtain ⟨s, hrun, hs⟩ : ∃ s,
      (targets.map fun target => (target, choiceLast (c.getCachelines.map (·.storesList))
        (MixedRadix.digits (radices (c.getCachelines.map (·.storesList))) (target - low + 1)))).foldlM
        (WitcherFullCrashValidator.validatePlan txId b.id) (c, []) = .ok s ∧
      s = (c, targets.map (targetState f₀.mapBase txId low b c)) := by
    rw [List.foldlM_map]
    refine Loops.foldlM_induction targets (c, []) rfl ?_
      (motive := fun (done : List Nat) (s : WitcherCache × List FullCrashState) =>
        s = (c, done.map (targetState f₀.mapBase txId low b c)))
    rintro done target rest s hsplit rfl
    obtain ⟨hlow, hhigh⟩ := htargets target (by rw [hsplit]; simp)
    have hlt : target - low + 1 < (radices (c.getCachelines.map (·.storesList))).prod := by omega
    have hdigits := (MixedRadix.digits_succ_range (radices (c.getCachelines.map (·.storesList)))).2
      (MixedRadix.digits (radices (c.getCachelines.map (·.storesList))) (target - low + 1))
    have hchoice := hdigits.mp (List.mem_map.mpr ⟨target - low, List.mem_range.mpr (by omega), rfl⟩)
    have hne := choiceLast_ne_nil hchoice.1 hchoice.2
    have hlen := mt List.length_eq_zero_iff.mp hne
    refine ⟨_, ?_, rfl⟩
    simp only [WitcherFullCrashValidator.validatePlan, h.constructChoice _ hne, Loops.ok_bind, if_neg hlen,
      List.map_append, List.map_singleton]
    rfl
  rw [WitcherFullCrashValidator.validate, hrun, hs]

/-! ### The loop over the fences -/

/-- The fences of a sequence of operations, each with the cache when it is reached. -/
def fenceCaches : WitcherCache → List Op → Except ReplayError (List (BaseOperation × WitcherCache))
  | _, [] => .ok []
  | c, op :: ops => do
      let (isFence, c) ← c.accept op
      if isFence then
        let c' ← c.writeBackAllFlushingStores
        let rest ← fenceCaches c' ops
        .ok ((op.base, c) :: rest)
      else fenceCaches c ops

theorem fenceCaches_fence {c c' : WitcherCache} (b : BaseOperation) {ops : List Op}
    {fences : List (BaseOperation × WitcherCache)} (hwrite : c.writeBackAllFlushingStores = .ok c')
    (hrest : fenceCaches c' ops = .ok fences) : fenceCaches c (.fence b :: ops) = .ok ((b, c) :: fences) := by
  simp only [fenceCaches, WitcherCache.accept, Loops.ok_bind, if_true, hwrite, hrest, Op.base]

theorem fenceCaches_accept {c c' : WitcherCache} {op : Op} (haccept : c.accept op = .ok (false, c')) (ops : List Op) :
    fenceCaches c (op :: ops) = fenceCaches c' ops := by
  simp only [fenceCaches, haccept, Loops.ok_bind, Bool.false_eq_true, if_false]

/-- An operation other than a fence is only accepted. -/
theorem tryLoop_accept {c c' : WitcherCache} {op : Op} (haccept : c.accept op = .ok (false, c')) (txId : Nat)
    (targets : List Nat) (i low : Nat) (validated : List FullCrashState) (ops : List Op) :
    tryLoop txId targets ⟨c, i, low, validated⟩ (op :: ops) = tryLoop txId targets ⟨c', i, low, validated⟩ ops := by
  simp only [tryLoop, haccept, Loops.ok_bind, Bool.false_eq_true, if_false]

/-- The running sum of the counts before the fence at position `k`. -/
def lowCount (fences : List (BaseOperation × WitcherCache)) (k : Nat) : Nat :=
  ((fences.take k).map fun e => permutationCount e.2).sum

def totalCount (fences : List (BaseOperation × WitcherCache)) : Nat := (fences.map fun e => permutationCount e.2).sum

theorem totalCount_cons (e : BaseOperation × WitcherCache) (fences : List (BaseOperation × WitcherCache)) :
    totalCount (e :: fences) = permutationCount e.2 + totalCount fences := by
  rw [totalCount, List.map_cons, List.sum_cons, ← totalCount]

/-- The states validated at the fences, from running sum `low` on, for a sorted list of targets. -/
def targetStates (mapBase txId : Nat) : Nat → List (BaseOperation × WitcherCache) → List Nat → List FullCrashState
  | _, [], _ => []
  | low, e :: fences, targets =>
      (targets.filter fun target => target < low + permutationCount e.2).map (targetState mapBase txId low e.1 e.2) ++
        targetStates mapBase txId (low + permutationCount e.2) fences
          (targets.filter fun target => low + permutationCount e.2 ≤ target)

theorem targetStates_nil (mapBase txId low : Nat) (fences : List (BaseOperation × WitcherCache)) :
    targetStates mapBase txId low fences [] = [] := by
  induction fences generalizing low with
  | nil => rfl
  | cons e fences ih => simpa [targetStates] using ih _

/-- A sorted list is cut at `n` by its leading part below `n`. -/
theorem takeWhile_sorted {l : List Nat} (hl : l.Pairwise (· < ·)) (n : Nat) :
    (l.takeWhile fun x => n > x) = (l.filter fun x => x < n) ∧
      (l.drop (l.takeWhile fun x => n > x).length) = l.filter fun x => n ≤ x := by
  induction l with
  | nil => simp
  | cons x l ih =>
      rw [List.pairwise_cons] at hl
      by_cases hx : x < n
      · obtain ⟨hfilter, hdrop⟩ := ih hl.2
        have hx' : ¬n ≤ x := by omega
        refine ⟨?_, ?_⟩
        · rw [List.takeWhile_cons_of_pos (by simpa using hx), List.filter_cons_of_pos (by simpa using hx), hfilter]
        · rw [List.takeWhile_cons_of_pos (by simpa using hx), List.length_cons, List.drop_succ_cons, hdrop,
            List.filter_cons_of_neg (by simpa using hx')]
      · have hall : ∀ y ∈ x :: l, n ≤ y := by
          intro y hy
          rcases List.mem_cons.mp hy with rfl | hy
          · omega
          · have := hl.1 y hy
            omega
        rw [List.takeWhile_cons_of_neg (by simpa using hx)]
        refine ⟨?_, ?_⟩
        · symm
          rw [List.filter_eq_nil_iff]
          intro y hy
          have := hall y hy
          simp only [decide_eq_true_eq]
          omega
        · symm
          rw [List.length_nil, List.drop_zero, List.filter_eq_self]
          intro y hy
          simpa using hall y hy

/-- The next operation of a history with distinct stores is new to it. -/
theorem fresh_of_nodup {hist : List Store} {op : Op} {ops : List Op}
    (h : ((hist ++ storesOf (op :: ops)).map (·.id)).Nodup) :
    (∀ st ∈ storesOf [op], ∀ s ∈ hist, s.id ≠ st.id) ∧
      ((hist ++ storesOf [op] ++ storesOf ops).map (·.id)).Nodup := by
  rw [storesOf_cons, ← List.append_assoc] at h
  refine ⟨?_, h⟩
  intro st hst s hs
  rw [List.append_assoc, List.map_append, List.nodup_append] at h
  exact h.2.2 s.id (List.mem_map_of_mem hs) st.id (List.mem_map_of_mem (List.mem_append_left _ hst))

/-- One fence of `run_try_traget`: the targets below the new running sum are validated, and the loop
goes on with the others, if there are any. -/
theorem Refines.tryLoop_fence {f₀ : BinaryFile} {hist : List Store} {m : Memory Nat Store} {c c' : WitcherCache}
    (h : Refines f₀ hist m c) (hwrite : c.writeBackAllFlushingStores = .ok c') (txId : Nat) (b : BaseOperation)
    (ops : List Op) (hcount : permutationCount c + 1 < 2 ^ 52) {targets : List Nat} {i low : Nat}
    (hi : i ≤ targets.length) (hsorted : targets.Pairwise (· < ·)) (hlow : ∀ target ∈ targets.drop i, low ≤ target)
    (validated : List FullCrashState) :
    ∃ i', i' ≤ targets.length ∧
      targets.drop i' = (targets.drop i).filter (fun target => low + permutationCount c ≤ target) ∧
      WitcherParallelFullCrashManager.tryLoop txId targets ⟨c, i, low, validated⟩ (.fence b :: ops) =
        let s : TryState := ⟨c', i', low + permutationCount c, validated ++
          ((targets.drop i).filter fun target => target < low + permutationCount c).map
            (targetState f₀.mapBase txId low b c)⟩
        if i' = targets.length then .ok s else WitcherParallelFullCrashManager.tryLoop txId targets s ops := by
  obtain ⟨htake, hdrop⟩ := takeWhile_sorted (hsorted.sublist (List.drop_sublist i targets)) (low + permutationCount c)
  have hmine : ∀ target ∈ (targets.drop i).takeWhile fun target => low + permutationCount c > target,
      low ≤ target ∧ target < low + permutationCount c := by
    intro target htarget
    rw [htake, List.mem_filter, decide_eq_true_eq] at htarget
    exact ⟨hlow target htarget.1, htarget.2⟩
  obtain ⟨plans, hplans, hvalidate⟩ := h.validateTargets txId low b _ hcount hmine
  refine ⟨i + ((targets.drop i).takeWhile fun target => low + permutationCount c > target).length, ?_, ?_, ?_⟩
  · have hle := List.Sublist.length_le (List.takeWhile_sublist
      (fun target => decide (low + permutationCount c > target)) (l := targets.drop i))
    rw [List.length_drop] at hle
    omega
  · rw [← List.drop_drop, hdrop]
  · rw [← htake]
    simp only [WitcherParallelFullCrashManager.tryLoop, WitcherCache.accept, Loops.ok_bind, if_true, hplans,
      Op.id_fence, hvalidate, hwrite]

/-- The loop of `run_try_traget`: every target at or above the running sum is validated at its
fence. -/
theorem Refines.tryLoop {f₀ : BinaryFile} (txId : Nat) (ops : List Op) {hist : List Store} {m : Memory Nat Store}
    {c : WitcherCache} (h : Refines f₀ hist m c)
    (hops : ∀ op ∈ ops, op.Replayable f₀.mapBase f₀.fileMap.length)
    (hnodup : ((hist ++ storesOf ops).map (·.id)).Nodup) :
    ∃ fences, fenceCaches c ops = .ok fences ∧
      ((∀ e ∈ fences, permutationCount e.2 + 1 < 2 ^ 52) →
        ∀ (targets : List Nat) (i low : Nat) (validated : List FullCrashState), i ≤ targets.length →
          targets.Pairwise (· < ·) → (∀ target ∈ targets.drop i, low ≤ target) →
          ∃ s, WitcherParallelFullCrashManager.tryLoop txId targets ⟨c, i, low, validated⟩ ops = .ok s ∧
            s.validated = validated ++ targetStates f₀.mapBase txId low fences (targets.drop i)) := by
  induction ops generalizing hist m c with
  | nil =>
      refine ⟨[], rfl, ?_⟩
      intro _ targets i low validated _ _ _
      exact ⟨_, rfl, by simp [targetStates]⟩
  | cons op ops ih =>
      obtain ⟨hfresh, hnodup⟩ := fresh_of_nodup hnodup
      obtain ⟨c', hc', href⟩ := h.acceptAndWriteBack op (hops op List.mem_cons_self) hfresh
      obtain ⟨fences, hfences, hrun⟩ := ih href (fun o ho => hops o (List.mem_cons_of_mem op ho)) hnodup
      by_cases hcase : ∃ b, op = .fence b
      · obtain ⟨b, rfl⟩ := hcase
        have hwrite : c.writeBackAllFlushingStores = .ok c' := hc'
        refine ⟨(b, c) :: fences, fenceCaches_fence b hwrite hfences, ?_⟩
        intro hcount targets i low validated hi hsorted hlow
        obtain ⟨i', hi', hdrop, hfence⟩ := h.tryLoop_fence hwrite txId b ops (hcount (b, c) List.mem_cons_self)
          hi hsorted hlow validated
        rw [hfence, targetStates, ← hdrop]
        split_ifs with hbreak
        · -- all targets used up: nothing is left for the other fences
          exact ⟨_, rfl, by rw [hbreak, List.drop_length, targetStates_nil, List.append_nil]⟩
        · obtain ⟨s, hs, hvalidated⟩ := hrun (fun e he => hcount e (List.mem_cons_of_mem _ he)) targets i' _ _ hi' hsorted
            (by
              rw [hdrop]
              intro target htarget
              simpa using (List.mem_filter.mp htarget).2)
          exact ⟨s, hs, by rw [hvalidated, List.append_assoc]⟩
      · have hop : ∀ b, op ≠ .fence b := fun b hb => hcase ⟨b, hb⟩
        have haccept := WitcherCache.accept_of_not_fence hop hc'
        refine ⟨fences, (fenceCaches_accept haccept ops).trans hfences, ?_⟩
        intro hcount targets i low validated hi hsorted hlow
        obtain ⟨s, hs, hvalidated⟩ := hrun hcount targets i low validated hi hsorted hlow
        exact ⟨s, (tryLoop_accept haccept txId targets i low validated ops).trans hs, hvalidated⟩

/-! ### Intervals -/

/-- The interval of the running sum at position `k` contains the target. -/
def InInterval (fences : List (BaseOperation × WitcherCache)) (k target : Nat) : Prop :=
  ∃ e, fences[k]? = some e ∧ lowCount fences k ≤ target ∧ target - lowCount fences k < permutationCount e.2

theorem lowCount_cons_succ (e : BaseOperation × WitcherCache) (fences : List (BaseOperation × WitcherCache)) (k : Nat) :
    lowCount (e :: fences) (k + 1) = permutationCount e.2 + lowCount fences k := by
  simp [lowCount]

/-- Later intervals start after earlier ones end. -/
theorem lowCount_add_le {fences : List (BaseOperation × WitcherCache)} {k k' : Nat} {e : BaseOperation × WitcherCache}
    (hget : fences[k]? = some e) (hlt : k < k') : lowCount fences k + permutationCount e.2 ≤ lowCount fences k' := by
  induction fences generalizing k k' with
  | nil => simp at hget
  | cons e' fences ih =>
      obtain ⟨j, rfl⟩ : ∃ j, k' = j + 1 := ⟨k' - 1, by omega⟩
      rw [lowCount_cons_succ]
      cases k with
      | zero =>
          simp only [List.getElem?_cons_zero, Option.some.injEq] at hget
          subst hget
          simp [lowCount]
      | succ k =>
          rw [List.getElem?_cons_succ] at hget
          have hrest := ih hget (show k < j by omega)
          rw [lowCount_cons_succ]
          omega

theorem InInterval.unique {fences : List (BaseOperation × WitcherCache)} {k k' target : Nat}
    (h : InInterval fences k target) (h' : InInterval fences k' target) : k' = k := by
  obtain ⟨e, hget, hlow, hhigh⟩ := h
  obtain ⟨e', hget', hlow', hhigh'⟩ := h'
  rcases Nat.lt_trichotomy k k' with hlt | heq | hlt
  · have := lowCount_add_le hget hlt
    omega
  · exact heq.symm
  · have := lowCount_add_le hget' hlt
    omega

/-- Each state is validated at the fence whose interval contains its target. -/
theorem mem_targetStates {mapBase txId low : Nat} {fences : List (BaseOperation × WitcherCache)} {targets : List Nat}
    (hlow : ∀ target ∈ targets, low ≤ target) {v : FullCrashState}
    (hv : v ∈ targetStates mapBase txId low fences targets) :
    ∃ k e, fences[k]? = some e ∧ v.fenceIndex = e.1.id ∧ low + lowCount fences k ≤ v.target ∧
      v.target - (low + lowCount fences k) < permutationCount e.2 := by
  induction fences generalizing low targets with
  | nil => cases hv
  | cons e fences ih =>
      rcases List.mem_append.mp hv with hv | hv
      · obtain ⟨target, htarget, rfl⟩ := List.mem_map.mp hv
        rw [List.mem_filter, decide_eq_true_eq] at htarget
        have := hlow target htarget.1
        refine ⟨0, e, rfl, rfl, ?_, ?_⟩ <;> simp only [lowCount, targetState, List.take_zero, List.map_nil, List.sum_nil] <;>
          omega
      · obtain ⟨k, e', hget, hid, hlow', hhigh⟩ := ih (by
          intro target htarget
          simpa using (List.mem_filter.mp htarget).2) hv
        refine ⟨k + 1, e', hget, hid, ?_, ?_⟩ <;> rw [lowCount_cons_succ] <;> omega

/-- Each target is validated once, in order. -/
theorem map_target_targetStates (mapBase txId : Nat) {low : Nat} {fences : List (BaseOperation × WitcherCache)}
    {targets : List Nat} (hsorted : targets.Pairwise (· < ·))
    (htargets : ∀ target ∈ targets, target < low + totalCount fences ∧ low ≤ target) :
    (targetStates mapBase txId low fences targets).map (·.target) = targets := by
  induction fences generalizing low targets with
  | nil =>
      cases targets with
      | nil => rfl
      | cons target targets =>
          have := htargets target List.mem_cons_self
          simp only [totalCount, List.map_nil, List.sum_nil] at this
          omega
  | cons e fences ih =>
      obtain ⟨htake, hdrop⟩ := takeWhile_sorted hsorted (low + permutationCount e.2)
      have hrest : (targetStates mapBase txId (low + permutationCount e.2) fences
          (targets.filter fun target => low + permutationCount e.2 ≤ target)).map (·.target) =
          targets.filter fun target => low + permutationCount e.2 ≤ target := by
        refine ih (hsorted.sublist List.filter_sublist) ?_
        intro target htarget
        rw [List.mem_filter, decide_eq_true_eq] at htarget
        have := htargets target htarget.1
        rw [totalCount_cons] at this
        omega
      have hself : ∀ l : List Nat,
          (l.map (targetState mapBase txId low e.1 e.2)).map (·.target) = l := by
        intro l
        rw [List.map_map]
        exact List.map_id l
      rw [targetStates, List.map_append, hrest, hself, ← htake, ← hdrop]
      exact List.prefix_iff_eq_append.mp (List.takeWhile_prefix _)

/-! ### All targets -/

theorem range'_cut (low n rest : Nat) :
    ((List.range' low (n + rest)).filter fun target => target < low + n) = List.range' low n ∧
      ((List.range' low (n + rest)).filter fun target => low + n ≤ target) = List.range' (low + n) rest := by
  rw [← List.range'_append_1, List.filter_append, List.filter_append]
  have h1 : ∀ target ∈ List.range' low n, low ≤ target ∧ target < low + n := fun target h => by
    simpa using List.mem_range'_1.mp h
  have h2 : ∀ target ∈ List.range' (low + n) rest, low + n ≤ target := fun target h =>
    (List.mem_range'_1.mp h).1
  constructor
  · rw [List.filter_eq_self.mpr fun target h => by simpa using (h1 target h).2,
      List.filter_eq_nil_iff.mpr fun target h => by have := h2 target h; simp only [decide_eq_true_eq]; omega,
      List.append_nil]
  · rw [List.filter_eq_nil_iff.mpr fun target h => by have := (h1 target h).2; simp only [decide_eq_true_eq]; omega,
      List.filter_eq_self.mpr fun target h => by simpa using h2 target h, List.nil_append]

/-- With all targets, the states of one fence are those of its whole interval. -/
theorem filter_targetStates_range (mapBase txId low : Nat) {fences : List (BaseOperation × WitcherCache)}
    (hids : (fences.map fun e => e.1.id).Nodup) {k : Nat} {e : BaseOperation × WitcherCache}
    (hget : fences[k]? = some e) :
    ((targetStates mapBase txId low fences (List.range' low (totalCount fences))).filter
      fun v => v.fenceIndex = e.1.id) =
        (List.range' (low + lowCount fences k) (permutationCount e.2)).map
          (targetState mapBase txId (low + lowCount fences k) e.1 e.2) := by
  induction fences generalizing low k with
  | nil => simp at hget
  | cons e' fences ih =>
      obtain ⟨hhead, hids⟩ := List.nodup_cons.mp hids
      obtain ⟨hcut, hcut'⟩ := range'_cut low (permutationCount e'.2) (totalCount fences)
      rw [targetStates, totalCount_cons, hcut, hcut', List.filter_append]
      cases k with
      | zero =>
          simp only [List.getElem?_cons_zero, Option.some.injEq] at hget
          subst hget
          have hself : ((List.range' low (permutationCount e'.2)).map (targetState mapBase txId low e'.1 e'.2)).filter
              (fun v => v.fenceIndex = e'.1.id) =
              (List.range' low (permutationCount e'.2)).map (targetState mapBase txId low e'.1 e'.2) := by
            rw [List.filter_eq_self]
            intro v hv
            obtain ⟨target, _, rfl⟩ := List.mem_map.mp hv
            simp [targetState]
          have hnone : (targetStates mapBase txId (low + permutationCount e'.2) fences
              (List.range' (low + permutationCount e'.2) (totalCount fences))).filter
              (fun v => v.fenceIndex = e'.1.id) = [] := by
            rw [List.filter_eq_nil_iff]
            intro v hv
            obtain ⟨j, e'', hget, hid, _⟩ := mem_targetStates (fun target h => (List.mem_range'_1.mp h).1) hv
            have hne : e''.1.id ≠ e'.1.id := by
              intro heq
              exact hhead (List.mem_map.mpr ⟨e'', List.mem_of_getElem? hget, heq⟩)
            simpa [hid] using hne
          rw [hself, hnone, List.append_nil]
          simp [lowCount]
      | succ k =>
          rw [List.getElem?_cons_succ] at hget
          have hnone : ((List.range' low (permutationCount e'.2)).map (targetState mapBase txId low e'.1 e'.2)).filter
              (fun v => v.fenceIndex = e.1.id) = [] := by
            rw [List.filter_eq_nil_iff]
            intro v hv
            obtain ⟨target, _, rfl⟩ := List.mem_map.mp hv
            have hne : e'.1.id ≠ e.1.id := by
              intro heq
              exact hhead (List.mem_map.mpr ⟨e, List.mem_of_getElem? hget, heq.symm⟩)
            exact fun hid => hne (of_decide_eq_true hid)
          rw [hnone, List.nil_append, ih (low + permutationCount e'.2) hids hget, lowCount_cons_succ, Nat.add_assoc]

/-- The fences found in a sequence of operations are among its operations, in order. -/
theorem fenceCaches_ids {ops : List Op} {c : WitcherCache} {fences : List (BaseOperation × WitcherCache)}
    (h : fenceCaches c ops = .ok fences) : (fences.map fun e => e.1.id).Sublist (ops.map Op.id) := by
  induction ops generalizing c fences with
  | nil =>
      cases h
      exact List.Sublist.slnil
  | cons op ops ih =>
      rw [fenceCaches] at h
      obtain ⟨⟨isFence, c'⟩, _, h⟩ := Loops.bind_ok h
      cases isFence with
      | false =>
          simp only [Bool.false_eq_true, if_false] at h
          exact (ih h).cons _
      | true =>
          simp only [if_true] at h
          obtain ⟨c'', _, h⟩ := Loops.bind_ok h
          obtain ⟨rest, hrest, h⟩ := Loops.bind_ok h
          cases h
          exact (ih hrest).cons_cons _

/-- The exhaustive worker covers every reachable crash state once. It reaches each fence of its
transaction; a sorted list of targets is validated target by target, each at the one fence whose
interval contains it; and all targets together validate, at each fence, one image for every nonempty
choice of leading parts of the cached lines. -/
theorem runTryTraget_covers (mapBase : Nat) (bytes : List UInt8) {entries : List TraceEntry} {trace : WitcherTrace}
    {txId start stop : Nat} (hextract : extractOperations entries = .ok trace)
    (hmapped : ∀ e ∈ entries, e.Mapped mapBase bytes.length) (hrange : txRange trace txId = .ok (start, stop)) :
    ∃ c fences,
      WitcherParallelFullCrashManager.runBeforeTarget trace txId (WitcherCache.new (BinaryFile.new mapBase bytes)) =
        .ok c ∧
      fenceCaches c (slice trace.atomicWriteOps start stop) = .ok fences ∧
      ((∀ e ∈ fences, permutationCount e.2 + 1 < 2 ^ 52) →
        (∀ targets : List Nat, targets.Pairwise (· < ·) → (∀ target ∈ targets, target < totalCount fences) →
          ∃ s, WitcherParallelFullCrashManager.runTryTraget trace txId targets c = .ok s ∧
            s.validated.map (·.target) = targets ∧
            ∀ v ∈ s.validated, ∃ k e, fences[k]? = some e ∧ v.fenceIndex = e.1.id ∧ InInterval fences k v.target ∧
              ∀ k', InInterval fences k' v.target → k' = k) ∧
        ∃ s, WitcherParallelFullCrashManager.runTryTraget trace txId (List.range (totalCount fences)) c = .ok s ∧
          ∀ (k : Nat) (b : BaseOperation) (c : WitcherCache), fences[k]? = some (b, c) →
            ∃ choices : List (List Nat), choices.Nodup ∧ (∀ ks, ks ∈ choices ↔ IsChoice c ks) ∧
            (s.validated.filter fun v => v.fenceIndex = b.id).map (·.pmFile) =
              choices.map (choiceImage mapBase c)) := by
  have hvalid := WitcherTrace.Valid.of_entries hextract hmapped
  have hset := txSetting hvalid hrange (TxCandidates.nil _)
  obtain ⟨first, c, _, hbefore, href⟩ := Refines.runBeforeTarget hvalid hrange
  obtain ⟨fences, hfences, hrun⟩ := href.tryLoop txId (slice trace.atomicWriteOps start stop) hset.replayable hset.nodup
  have htry : ∀ targets : List Nat, (∀ e ∈ fences, permutationCount e.2 + 1 < 2 ^ 52) → targets.Pairwise (· < ·) →
      ∃ s, WitcherParallelFullCrashManager.runTryTraget trace txId targets c = .ok s ∧
        s.validated = targetStates mapBase txId 0 fences targets := by
    intro targets hcount hsorted
    obtain ⟨s, hs, hvalidated⟩ := hrun hcount targets 0 0 [] (Nat.zero_le _) hsorted (fun _ _ => Nat.zero_le _)
    rw [List.nil_append, List.drop_zero] at hvalidated
    refine ⟨s, ?_, hvalidated⟩
    simp only [WitcherParallelFullCrashManager.runTryTraget, hrange, Loops.ok_bind, hs]
  refine ⟨c, fences, hbefore, hfences, fun hcount => ⟨?_, ?_⟩⟩
  · intro targets hsorted htargets
    obtain ⟨s, hs, hvalidated⟩ := htry targets hcount hsorted
    refine ⟨s, hs, ?_, ?_⟩
    · rw [hvalidated]
      exact map_target_targetStates mapBase txId hsorted fun target h => ⟨by simpa using htargets target h, Nat.zero_le _⟩
    · intro v hv
      rw [hvalidated] at hv
      obtain ⟨k, e, hget, hid, hlow, hhigh⟩ := mem_targetStates (fun _ _ => Nat.zero_le _) hv
      rw [Nat.zero_add] at hlow hhigh
      have hin : InInterval fences k v.target := ⟨e, hget, hlow, hhigh⟩
      exact ⟨k, e, hget, hid, hin, fun k' hk' => hin.unique hk'⟩
  · obtain ⟨s, hs, hvalidated⟩ := htry (List.range (totalCount fences)) hcount List.pairwise_lt_range
    refine ⟨s, hs, ?_⟩
    intro k b c' hget
    have hids : (fences.map fun e => e.1.id).Nodup :=
      (hset.ids.sublist (fenceCaches_ids hfences)).imp fun hlt => hlt.ne
    have hstates := filter_targetStates_range mapBase txId 0 hids hget
    rw [← List.range_eq_range', ← hvalidated] at hstates
    obtain ⟨hnodup, hmem⟩ := MixedRadix.digits_succ_range (radices (c'.getCachelines.map (·.storesList)))
    rw [← permutationCount_eq] at hnodup hmem
    refine ⟨_, hnodup, fun ks => (hmem ks).trans (isChoice_iff c' ks).symm, ?_⟩
    rw [hstates, List.range'_eq_map_range, List.map_map, List.map_map, List.map_map]
    apply List.map_congr_left
    intro j _
    simp [targetState]

theorem runTryTraget_covers_reorder :
    ∃ c fences,
      WitcherParallelFullCrashManager.runBeforeTarget reorderTrace 0
        (WitcherCache.new (BinaryFile.new 0 (List.replicate 66 0))) = .ok c ∧
      fenceCaches c (slice reorderOps 0 6) = .ok fences ∧ totalCount fences = 4 ∧
      ∃ s, WitcherParallelFullCrashManager.runTryTraget reorderTrace 0 [0, 1, 2, 3] c = .ok s ∧
        s.validated.map (fun v => (v.fenceIndex, v.target)) = [(4, 0), (4, 1), (4, 2), (5, 3)] := by
  have hextract : extractOperations reorderEntries = .ok reorderTrace := rfl
  have hrange : txRange reorderTrace 0 = .ok (0, 6) := rfl
  obtain ⟨c, fences, hbefore, hfences, hcovers⟩ := runTryTraget_covers 0 (List.replicate 66 0) hextract
    (by decide) hrange
  have hfences' : fenceCaches c (slice reorderOps 0 6) = .ok fences := hfences
  cases hbefore
  cases hfences
  obtain ⟨s, hs, _⟩ := (hcovers (by decide)).1 [0, 1, 2, 3] (by decide) (by decide)
  refine ⟨_, _, rfl, hfences', by decide, s, hs, ?_⟩
  cases hs
  decide

end Witcher
