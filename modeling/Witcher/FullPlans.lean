import Mathlib.Algebra.Order.Floor.Semifield
import Mathlib.Data.Rat.Floor
import Mathlib.Data.List.Sort
import Mathlib.Order.Interval.Finset.Nat
import Mathlib.Tactic.FieldSimp
import Witcher.Dict
import Witcher.RejectionSampling
import Witcher.TrueDivision

/-! The plans of the exhaustive engines (`engines/witcherparallelfull`). The crash states of a
transaction are numbered from 0; an engine cuts the numbers into blocks and gives each block to a
worker, which draws as many targets from its block as its budget says. -/

namespace Witcher

open TrueDivision

/-- `[start, end, budget]`. -/
structure TargetPlan where
  start : Nat
  stop : Nat
  budget : Nat
  deriving DecidableEq, Repr

inductive PlanError where
  | zeroDivisionError
  | indexError
  deriving DecidableEq, Repr

def BUDGET : Nat := 1000

def TOTAL : Nat := 10000000

/-! ### Cutting a transaction into blocks -/

/-- The local variables of the loop over `range(num)`. -/
structure Splitting where
  start : Nat
  length : Nat
  plans : List TargetPlan

def Splitting.addBlock (s : Splitting) : Splitting :=
  let length := if s.length < BUDGET then BUDGET else s.length
  let stop := s.start + length - 1
  ⟨stop + 1, length, s.plans ++ [⟨s.start, stop, BUDGET⟩]⟩

def splitBlocks (num length : Nat) : Splitting := (List.range num).foldl (fun s _ => s.addBlock) ⟨0, length, []⟩

/-- The list `plans` of a transaction with `total > 0` crash states; `intDiv` is `int(a / b)`. The
two engines have the same text here. -/
def getPlans (intDiv : Nat → Nat → Nat) (plan total : Nat) : Except PlanError (List TargetPlan) := do
  let num := intDiv plan BUDGET
  let length ←
    if plan % BUDGET > 0 then .ok (intDiv total (num + 1))
    else if num = 0 then .error .zeroDivisionError
    else .ok (intDiv total num)
  let s := splitBlocks num length
  if plan % BUDGET > 0 then .ok (s.plans ++ [⟨s.start, total - 1, plan % BUDGET⟩]) else .ok s.plans

/-- `crash_targets` of a worker. The draws are what `random.randint(start, end)` returns. -/
def WitcherParallelFullCrashManager.initPlans (p : TargetPlan) (draws : List Nat) : Option (List Nat) :=
  if p.budget = p.stop + 1 - p.start then some (List.range' p.start (p.stop + 1 - p.start))
  else (RejectionSampling.sample p.budget [] draws).map fun targets => targets.mergeSort

/-! ### The blocks in closed form -/

def clampedLength (length : Nat) : Nat := if length < BUDGET then BUDGET else length

def blocks (num length : Nat) : List TargetPlan :=
  (List.range num).map fun i => ⟨i * length, i * length + length - 1, BUDGET⟩

theorem budget_le_clampedLength (length : Nat) : BUDGET ≤ clampedLength length := by
  rw [clampedLength]
  split_ifs <;> omega

theorem clampedLength_idem (length : Nat) : clampedLength (clampedLength length) = clampedLength length := by
  have h := budget_le_clampedLength length
  rw [clampedLength, if_neg (by omega)]

theorem addBlock_eq (s : Splitting) :
    s.addBlock = ⟨s.start + clampedLength s.length, clampedLength s.length,
      s.plans ++ [⟨s.start, s.start + clampedLength s.length - 1, BUDGET⟩]⟩ := by
  have h : 0 < clampedLength s.length := lt_of_lt_of_le (by decide) (budget_le_clampedLength s.length)
  have hsucc : s.start + clampedLength s.length - 1 + 1 = s.start + clampedLength s.length := by omega
  change Splitting.mk (s.start + clampedLength s.length - 1 + 1) (clampedLength s.length) _ = _
  rw [hsucc]
  rfl

theorem blocks_succ (num length : Nat) :
    blocks (num + 1) length = blocks num length ++ [⟨num * length, num * length + length - 1, BUDGET⟩] := by
  rw [blocks, List.range_succ, List.map_append, List.map_singleton]
  rfl

/-- The clamp applies once: after the first block the length stays what it is. -/
theorem splitBlocks_succ (num length : Nat) :
    splitBlocks (num + 1) length =
      ⟨(num + 1) * clampedLength length, clampedLength length, blocks (num + 1) (clampedLength length)⟩ := by
  induction num with
  | zero =>
      rw [splitBlocks, List.range_succ, List.range_zero, List.nil_append, List.foldl_cons, List.foldl_nil, addBlock_eq]
      simp [blocks]
  | succ num ih =>
      rw [splitBlocks] at ih
      rw [splitBlocks, List.range_succ, List.foldl_append, ih, List.foldl_cons, List.foldl_nil, addBlock_eq,
        clampedLength_idem, blocks_succ (num + 1), Nat.succ_mul (num + 1)]

theorem splitBlocks_plans (num length : Nat) : (splitBlocks num length).plans = blocks num (clampedLength length) := by
  cases num with
  | zero => rfl
  | succ num => rw [splitBlocks_succ]

theorem splitBlocks_start (num length : Nat) : (splitBlocks num length).start = num * clampedLength length := by
  cases num with
  | zero => simp [splitBlocks]
  | succ num => rw [splitBlocks_succ]

/-- The length of the blocks, and what is left of the plan for the last worker. -/
def blockLength (plan total : Nat) : Nat :=
  clampedLength (if plan % BUDGET > 0 then total / (plan / BUDGET + 1) else total / (plan / BUDGET))

def lastBlock (plan total : Nat) : List TargetPlan :=
  if plan % BUDGET > 0 then [⟨plan / BUDGET * blockLength plan total, total - 1, plan % BUDGET⟩] else []

theorem getPlans_eq {plan total : Nat} (hplan : 0 < plan) :
    getPlans (· / ·) plan total = .ok (blocks (plan / BUDGET) (blockLength plan total) ++ lastBlock plan total) := by
  unfold getPlans lastBlock
  by_cases hrest : plan % BUDGET > 0
  · simp only [hrest, if_true, Loops.ok_bind, splitBlocks_plans, splitBlocks_start, blockLength]
  · have hnum : plan / BUDGET ≠ 0 := by
      have hdiv := Nat.div_add_mod plan BUDGET
      intro hzero
      rw [hzero] at hdiv
      omega
    simp only [hrest, if_false, hnum, Loops.ok_bind, splitBlocks_plans, blockLength, List.append_nil]

/-- Below `2^53` the floating point divisions are exact. -/
theorem getPlans_trueDivInt {plan total : Nat} (hle : plan ≤ total) (hexact : total < 2 ^ 53) :
    getPlans trueDivInt plan total = getPlans (· / ·) plan total := by
  have hnum : trueDivInt plan BUDGET = plan / BUDGET := trueDivInt_eq_div plan BUDGET (by decide) (by omega)
  unfold getPlans
  simp only [hnum, trueDivInt_eq_div total (plan / BUDGET + 1) (Nat.succ_pos _) hexact]
  by_cases hrest : plan % BUDGET > 0
  · simp only [hrest, if_true]
  · by_cases hzero : plan / BUDGET = 0
    · simp only [hrest, hzero, if_true]
    · simp only [hrest, hzero, trueDivInt_eq_div total (plan / BUDGET) (Nat.pos_of_ne_zero hzero) hexact]

/-! ### The blocks fit -/

/-- The clamped and the unclamped length both leave room for the last budget. -/
theorem blocks_room {plan total : Nat} (hle : plan ≤ total) :
    plan / BUDGET * blockLength plan total + plan % BUDGET ≤ total := by
  have hdiv := Nat.div_add_mod plan BUDGET
  rw [Nat.mul_comm] at hdiv
  have hmod : plan % BUDGET < BUDGET := Nat.mod_lt plan (by decide)
  unfold blockLength clampedLength
  by_cases hrest : plan % BUDGET > 0
  · rw [if_pos hrest]
    split_ifs with hclamp
    · omega
    · -- one more block of the same length would still fit, and it is longer than the last budget
      have hmul := Nat.mul_div_le total (plan / BUDGET + 1)
      rw [Nat.succ_mul] at hmul
      omega
  · have hzero : plan % BUDGET = 0 := by omega
    rw [if_neg hrest, hzero, Nat.add_zero]
    split_ifs with hclamp
    · omega
    · exact Nat.mul_div_le total (plan / BUDGET)

/-- A plan of everything has blocks of the budget's length. -/
theorem blockLength_self {total : Nat} (htotal : 0 < total) : blockLength total total = BUDGET := by
  have hdiv := Nat.div_add_mod total BUDGET
  have hmod : total % BUDGET < BUDGET := Nat.mod_lt total (by decide)
  unfold blockLength clampedLength
  by_cases hrest : total % BUDGET > 0
  · rw [if_pos hrest, if_pos]
    rw [Nat.div_lt_iff_lt_mul (Nat.succ_pos _), Nat.mul_succ]
    omega
  · rw [if_neg hrest]
    have hzero : total % BUDGET = 0 := by omega
    have hpos : 0 < total / BUDGET := by
      apply Nat.pos_of_ne_zero
      intro h
      rw [h] at hdiv
      omega
    have heq : total / (total / BUDGET) = BUDGET := by
      conv_lhs => rw [← hdiv, hzero, Nat.add_zero]
      rw [Nat.mul_div_cancel_left _ (by decide)]
      exact Nat.mul_div_cancel _ hpos
    rw [heq, if_neg (Nat.lt_irrefl _)]

/-- An entry whose worker can sample: inside the transaction, with room for its budget. -/
structure TargetPlan.Fits (p : TargetPlan) (total : Nat) : Prop where
  start_le : p.start ≤ p.stop
  stop_lt : p.stop < total
  budget_pos : 1 ≤ p.budget
  room : p.budget ≤ p.stop - p.start + 1

section Blocks

variable {num length i : Nat} {p : TargetPlan}

theorem mem_blocks : p ∈ blocks num length ↔ ∃ i < num, p = ⟨i * length, i * length + length - 1, BUDGET⟩ := by
  simp only [blocks, List.mem_map, List.mem_range]
  exact exists_congr fun i => and_congr_right fun _ => eq_comm

theorem block_end_le (hi : i < num) : i * length + length ≤ num * length := by
  calc i * length + length = (i + 1) * length := (Nat.succ_mul i length).symm
    _ ≤ num * length := Nat.mul_le_mul_right length hi

theorem blocks_stop_lt (hlength : 0 < length) (hp : p ∈ blocks num length) : p.stop < num * length := by
  obtain ⟨i, hi, rfl⟩ := mem_blocks.mp hp
  have hend : i * length + length ≤ num * length := block_end_le hi
  change i * length + length - 1 < num * length
  omega

theorem blocks_fit {total : Nat} (hlength : BUDGET ≤ length) (htotal : num * length ≤ total) (hp : p ∈ blocks num length) :
    p.Fits total := by
  have hbudget : 0 < BUDGET := by decide
  have hstop := blocks_stop_lt (by omega) hp
  obtain ⟨i, hi, rfl⟩ := mem_blocks.mp hp
  constructor
  · change i * length ≤ i * length + length - 1
    omega
  · exact lt_of_lt_of_le hstop htotal
  · exact hbudget
  · change BUDGET ≤ i * length + length - 1 - i * length + 1
    omega

theorem blocks_ascending (hlength : 0 < length) : (blocks num length).Pairwise fun p q => p.stop < q.start := by
  rw [blocks, List.pairwise_map]
  apply List.pairwise_lt_range.imp
  intro i j hij
  have hend : i * length + length ≤ j * length := block_end_le hij
  change i * length + length - 1 < j * length
  omega

theorem blocks_budgets : ((blocks num length).map (·.budget)).sum = num * BUDGET := by
  have hmap : (blocks num length).map (·.budget) = List.replicate num BUDGET := by
    rw [blocks, List.map_map]
    apply List.eq_replicate_iff.mpr
    simp
  rw [hmap, List.sum_replicate_nat]

/-- The blocks cover what is before their end. -/
theorem blocks_cover {t : Nat} (hlength : 0 < length) (ht : t < num * length) :
    ∃ p ∈ blocks num length, p.start ≤ t ∧ t ≤ p.stop := by
  have hi : t / length < num := (Nat.div_lt_iff_lt_mul hlength).mpr ht
  have hdiv := Nat.div_add_mod t length
  have hmod := Nat.mod_lt t hlength
  rw [Nat.mul_comm] at hdiv
  refine ⟨_, mem_blocks.mpr ⟨t / length, hi, rfl⟩, ?_, ?_⟩
  · change t / length * length ≤ t
    omega
  · change t ≤ t / length * length + length - 1
    omega

end Blocks

/-! ### Sampling the targets -/

/-- Whatever a worker drew so far, it can finish, and what it ends with are as many different
targets of its block as its budget, in order. -/
structure TargetPlan.Samples (p : TargetPlan) : Prop where
  finishes : ∀ draws : List Nat, (∀ t ∈ draws, p.start ≤ t ∧ t ≤ p.stop) →
    ∃ more : List Nat, (∀ t ∈ more, p.start ≤ t ∧ t ≤ p.stop) ∧
      (WitcherParallelFullCrashManager.initPlans p (draws ++ more)).isSome
  targets : ∀ draws out : List Nat, (∀ t ∈ draws, p.start ≤ t ∧ t ≤ p.stop) →
    WitcherParallelFullCrashManager.initPlans p draws = some out →
      out.length = p.budget ∧ out.Pairwise (· < ·) ∧ ∀ t ∈ out, p.start ≤ t ∧ t ≤ p.stop

theorem TargetPlan.Fits.finishes {p : TargetPlan} {total : Nat} (h : p.Fits total) (draws : List Nat) :
    ∃ more : List Nat, (∀ t ∈ more, p.start ≤ t ∧ t ≤ p.stop) ∧
      (WitcherParallelFullCrashManager.initPlans p (draws ++ more)).isSome := by
  have hstart := h.start_le
  have hroom := h.room
  have hcard : ([] : List Nat).length + p.budget ≤ (Finset.Icc p.start p.stop).card := by
    rw [Nat.card_Icc, List.length_nil]
    omega
  obtain ⟨more, hmore, hsome⟩ := RejectionSampling.sample_finishes draws List.nodup_nil hcard
  refine ⟨more, fun t ht => Finset.mem_Icc.mp (hmore t ht), ?_⟩
  rw [WitcherParallelFullCrashManager.initPlans]
  split_ifs with hall
  · rfl
  · rw [Option.isSome_map]
    exact hsome

theorem sorted_nodup {l : List Nat} (hnodup : l.Nodup) : l.mergeSort.Pairwise (· < ·) := by
  have hsorted : l.mergeSort.Pairwise fun a b => decide (a ≤ b) = true :=
    List.pairwise_mergeSort (fun a b c hab hbc => by simp at *; omega) (fun a b => by simp; omega) l
  have hnodup' : l.mergeSort.Nodup := (List.mergeSort_perm l _).nodup_iff.mpr hnodup
  apply (hsorted.and hnodup').imp
  rintro a b ⟨hle, hne⟩
  have hle' := of_decide_eq_true hle
  omega

theorem TargetPlan.Fits.samples {p : TargetPlan} {total : Nat} (h : p.Fits total) : p.Samples := by
  constructor
  · intro draws _
    exact h.finishes draws
  · intro draws out hdraws hout
    have hstart := h.start_le
    rw [WitcherParallelFullCrashManager.initPlans] at hout
    split_ifs at hout with hall
    · cases hout
      refine ⟨?_, List.pairwise_lt_range', ?_⟩
      · rw [List.length_range', hall]
      · intro t ht
        rw [List.mem_range'_1] at ht
        omega
    · obtain ⟨chosen, hchosen, rfl⟩ := Option.map_eq_some_iff.mp hout
      obtain ⟨hnodup, hlength, hmem⟩ := RejectionSampling.sample_sound List.nodup_nil hchosen
      refine ⟨?_, sorted_nodup hnodup, ?_⟩
      · rw [List.length_mergeSort, hlength, List.length_nil, Nat.zero_add]
      · intro t ht
        rcases hmem t (List.mem_mergeSort.mp ht) with hnil | ht
        · cases hnil
        · exact hdraws t ht

/-! ### The list of a transaction -/

/-- The entries of a transaction with `total` crash states of which `plan` are to be tested. -/
structure WellFormedPlans (plan total : Nat) (plans : List TargetPlan) : Prop where
  fits : ∀ p ∈ plans, p.Fits total
  samples : ∀ p ∈ plans, p.Samples
  ascending : plans.Pairwise fun p q => p.stop < q.start
  starts : (plans.map (·.start)).Nodup
  budgets : (plans.map (·.budget)).sum = plan
  covers : plan = total → (∀ t < total, ∃ p ∈ plans, p.start ≤ t ∧ t ≤ p.stop) ∧
    ∀ p ∈ plans, p.budget = p.stop - p.start + 1

theorem mem_lastBlock {plan total : Nat} {p : TargetPlan} : p ∈ lastBlock plan total ↔
    plan % BUDGET > 0 ∧ p = ⟨plan / BUDGET * blockLength plan total, total - 1, plan % BUDGET⟩ := by
  unfold lastBlock
  split_ifs with hrest <;> simp [hrest]

theorem lastBlock_fits {plan total : Nat} {p : TargetPlan} (hle : plan ≤ total) (hp : p ∈ lastBlock plan total) :
    p.Fits total := by
  obtain ⟨hrest, rfl⟩ := mem_lastBlock.mp hp
  have hroom := blocks_room hle
  constructor
  · change plan / BUDGET * blockLength plan total ≤ total - 1
    omega
  · change total - 1 < total
    omega
  · exact hrest
  · change plan % BUDGET ≤ total - 1 - plan / BUDGET * blockLength plan total + 1
    omega

theorem ascending_starts {plans : List TargetPlan} (hascending : plans.Pairwise fun p q => p.stop < q.start)
    (hstart : ∀ p ∈ plans, p.start ≤ p.stop) : (plans.map (·.start)).Nodup := by
  rw [List.Nodup, List.pairwise_map]
  apply hascending.imp_of_mem
  intro p q hp _ hlt heq
  have hle := hstart p hp
  omega

section Plans

variable {plan total : Nat}

theorem plans_ascending :
    (blocks (plan / BUDGET) (blockLength plan total) ++ lastBlock plan total).Pairwise fun p q => p.stop < q.start := by
  have hlength : 0 < blockLength plan total := lt_of_lt_of_le (by decide) (budget_le_clampedLength _)
  rw [List.pairwise_append]
  refine ⟨blocks_ascending hlength, ?_, ?_⟩
  · unfold lastBlock
    split_ifs <;> simp
  · intro p hp q hq
    obtain ⟨_, rfl⟩ := mem_lastBlock.mp hq
    exact blocks_stop_lt hlength hp

theorem plans_fit (hle : plan ≤ total) :
    ∀ p ∈ blocks (plan / BUDGET) (blockLength plan total) ++ lastBlock plan total, p.Fits total := by
  intro p hp
  have hroom := blocks_room hle
  have hlength : BUDGET ≤ blockLength plan total := budget_le_clampedLength _
  rcases List.mem_append.mp hp with hp | hp
  · exact blocks_fit hlength (by omega) hp
  · exact lastBlock_fits hle hp

theorem plans_budgets :
    ((blocks (plan / BUDGET) (blockLength plan total) ++ lastBlock plan total).map (·.budget)).sum = plan := by
  have hdiv := Nat.div_add_mod plan BUDGET
  rw [Nat.mul_comm] at hdiv
  rw [List.map_append, List.sum_append, blocks_budgets]
  unfold lastBlock
  split_ifs with hrest
  · exact hdiv
  · change plan / BUDGET * BUDGET + 0 = plan
    omega

/-- A plan of everything leaves nothing out and nothing to chance. -/
theorem plans_cover (htotal : 0 < total) :
    (∀ t < total, ∃ p ∈ blocks (total / BUDGET) (blockLength total total) ++ lastBlock total total, p.start ≤ t ∧ t ≤ p.stop) ∧
      ∀ p ∈ blocks (total / BUDGET) (blockLength total total) ++ lastBlock total total, p.budget = p.stop - p.start + 1 := by
  have hdiv := Nat.div_add_mod total BUDGET
  have hbudget : 0 < BUDGET := by decide
  rw [Nat.mul_comm] at hdiv
  rw [blockLength_self htotal]
  constructor
  · intro t ht
    by_cases hblocks : t < total / BUDGET * BUDGET
    · obtain ⟨p, hp, hcover⟩ := blocks_cover hbudget hblocks
      exact ⟨p, List.mem_append_left _ hp, hcover⟩
    · refine ⟨_, List.mem_append_right _ (mem_lastBlock.mpr ⟨by omega, rfl⟩), ?_, ?_⟩
      · change total / BUDGET * blockLength total total ≤ t
        rw [blockLength_self htotal]
        omega
      · change t ≤ total - 1
        omega
  · intro p hp
    rcases List.mem_append.mp hp with hp | hp
    · obtain ⟨i, _, rfl⟩ := mem_blocks.mp hp
      change BUDGET = i * BUDGET + BUDGET - 1 - i * BUDGET + 1
      omega
    · obtain ⟨hrest, rfl⟩ := mem_lastBlock.mp hp
      change total % BUDGET = total - 1 - total / BUDGET * blockLength total total + 1
      rw [blockLength_self htotal]
      omega

theorem getPlans_spec (hplan : 1 ≤ plan) (hle : plan ≤ total) :
    ∃ plans, getPlans (· / ·) plan total = .ok plans ∧ WellFormedPlans plan total plans := by
  refine ⟨_, getPlans_eq hplan, ?_⟩
  have hfits := plans_fit hle
  constructor
  · exact hfits
  · exact fun p hp => (hfits p hp).samples
  · exact plans_ascending
  · exact ascending_starts plans_ascending fun p hp => (hfits p hp).start_le
  · exact plans_budgets
  · rintro rfl
    exact plans_cover hplan

end Plans

/-- The entries built by `WitcherParallelFullEngine.run`, with its floating point divisions. -/
theorem fullEngine_plans_wellFormed (plan total : Nat) (hplan : 1 ≤ plan) (hle : plan ≤ total) (hexact : total < 2 ^ 53) :
    ∃ plans, getPlans trueDivInt plan total = .ok plans ∧ WellFormedPlans plan total plans := by
  rw [getPlans_trueDivInt hle hexact]
  exact getPlans_spec hplan hle

/-- Two thousand five hundred targets among nine thousand crash states. -/
theorem fullEngine_plans_wellFormed_three_blocks :
    getPlans trueDivInt 2500 9000 = .ok [⟨0, 2999, 1000⟩, ⟨3000, 5999, 1000⟩, ⟨6000, 8999, 500⟩] ∧
      ∃ plans, getPlans trueDivInt 2500 9000 = .ok plans ∧ WellFormedPlans 2500 9000 plans :=
  ⟨by decide +kernel, fullEngine_plans_wellFormed 2500 9000 (by decide) (by decide) (by decide)⟩

/-! ### The shares of the transactions

The second engine tests about `TOTAL` states in all. It gives each transaction a share in proportion to
its number of crash states, rounded, and cuts the share as above. -/

namespace WitcherParallelFullEngine2

/-- `int(permutation_count / total_permutation_count * TOTAL + 0.5)`, over the rationals. -/
def planCount (totalPermutationCount permutationCount : Nat) : Except PlanError Nat :=
  if totalPermutationCount = 0 then .error .zeroDivisionError
  else .ok ⌊(permutationCount : ℚ) / totalPermutationCount * TOTAL + 1 / 2⌋₊

/-- One iteration of the loop that fills `self.plan`. -/
def addPlan (permutationCountList : List Nat) (plan : Dict Nat Nat) (txId : Nat) : Except PlanError (Dict Nat Nat) :=
  match permutationCountList[txId]? with
  | none => .error .indexError
  | some permutationCount => do
      let count ← planCount permutationCountList.sum permutationCount
      .ok (if count > 0 then plan.set txId count else plan)

def plan (permutationCountList : List Nat) : Except PlanError (Dict Nat Nat) :=
  (List.range permutationCountList.length).foldlM (addPlan permutationCountList) Dict.empty

/-- The entries of one transaction, with its number. -/
def txPlans (permutationCountList : List Nat) (plan : Dict Nat Nat) (txId : Nat) :
    Except PlanError (List (Nat × TargetPlan)) :=
  match plan.get? txId with
  | none => .ok []
  | some count =>
      match permutationCountList[txId]? with
      | none => .error .indexError
      | some total => do
          let plans ← getPlans (· / ·) count total
          .ok (plans.map fun p => (txId, p))

/-- What `run` submits for a trace with `txs` transactions. -/
def run (permutationCountList : List Nat) (txs : Nat) : Except PlanError (List (Nat × TargetPlan)) := do
  let plan ← plan permutationCountList
  let plans ← (List.range txs).mapM (txPlans permutationCountList plan)
  .ok plans.flatten

/-- The share of a transaction in integers. -/
def share (total count : Nat) : Nat := (2 * count * TOTAL + total) / (2 * total)

theorem planCount_eq {total : Nat} (htotal : 0 < total) (count : Nat) : planCount total count = .ok (share total count) := by
  have hne : (total : ℚ) ≠ 0 := Nat.cast_ne_zero.mpr (by omega)
  have hcast : (count : ℚ) / total * TOTAL + 1 / 2 = ((2 * count * TOTAL + total : Nat) : ℚ) / ((2 * total : Nat) : ℚ) := by
    push_cast
    field_simp
  rw [planCount, if_neg (by omega), hcast, Nat.floor_div_eq_div]
  rfl

theorem share_le_iff {total : Nat} (htotal : 0 < total) (count : Nat) :
    share total count ≤ count ↔ 2 * count * TOTAL < (2 * count + 1) * total := by
  have hnext : (count + 1) * (2 * total) = (2 * count + 1) * total + total := by ring
  rw [share, ← Nat.lt_succ_iff, Nat.div_lt_iff_lt_mul (by omega), Nat.succ_eq_add_one, hnext]
  omega

variable {counts : List Nat}

/-- Of the given transactions those with a positive share are planned, with that share. -/
def IsPlan (counts : List Nat) (txs : List Nat) (d : Dict Nat Nat) : Prop :=
  ∀ tx n, d.get? tx = some n ↔ tx ∈ txs ∧ ∃ count, counts[tx]? = some count ∧ n = share counts.sum count ∧ 0 < n

theorem addPlan_eq (hsum : 0 < counts.sum) {tx count : Nat} (htx : counts[tx]? = some count) (d : Dict Nat Nat) :
    addPlan counts d tx = .ok (if share counts.sum count > 0 then d.set tx (share counts.sum count) else d) := by
  simp only [addPlan, htx, planCount_eq hsum, Loops.ok_bind]

theorem IsPlan.addPlan {txs : List Nat} {d : Dict Nat Nat} (hd : IsPlan counts txs d) {tx count : Nat} (hnew : tx ∉ txs)
    (htx : counts[tx]? = some count) :
    IsPlan counts (txs ++ [tx]) (if share counts.sum count > 0 then d.set tx (share counts.sum count) else d) := by
  intro a n
  rw [List.mem_append, List.mem_singleton]
  by_cases ha : a = tx
  · subst ha
    have hnone : d.get? a = none := by
      rw [Option.eq_none_iff_forall_ne_some]
      exact fun n hn => hnew ((hd a n).mp hn).1
    have hvalue : (∃ c, counts[a]? = some c ∧ n = share counts.sum c ∧ 0 < n) ↔
        n = share counts.sum count ∧ 0 < n := by
      simp [htx]
    rw [hvalue]
    split_ifs with hshare
    · rw [Dict.get?_set, if_pos rfl, Option.some_inj]
      constructor
      · rintro rfl
        exact ⟨.inr rfl, rfl, hshare⟩
      · exact fun h => h.2.1.symm
    · rw [hnone]
      constructor
      · intro h
        cases h
      · rintro ⟨_, rfl, hpos⟩
        exact absurd hpos hshare
  · have hkeep : (if share counts.sum count > 0 then d.set tx (share counts.sum count) else d).get? a = d.get? a := by
      split_ifs
      · rw [Dict.get?_set, if_neg ha]
      · rfl
    rw [hkeep, hd a n, or_iff_left ha]

theorem plan_spec (hsum : 0 < counts.sum) :
    ∃ d, plan counts = .ok d ∧ IsPlan counts (List.range counts.length) d := by
  refine Loops.foldlM_induction (List.range counts.length) Dict.empty ?_ ?_
  · intro tx n
    simp
  · intro done tx rest d hl hd
    have hnodup : (done ++ tx :: rest).Nodup := hl ▸ List.nodup_range
    have htx : tx < counts.length := List.mem_range.mp (by rw [hl]; simp)
    have hnew : tx ∉ done := fun h => (List.nodup_append.mp hnodup).2.2 tx h tx List.mem_cons_self rfl
    exact ⟨_, addPlan_eq hsum (List.getElem?_eq_getElem htx) d, hd.addPlan hnew (List.getElem?_eq_getElem htx)⟩

/-- Every planned transaction gets between one and all of its crash states, and every entry lies inside of
its transaction with room for its budget, so that its worker can sample. -/
def WithinCounts (counts : List Nat) : Prop :=
  (∃ d, plan counts = .ok d ∧ ∀ tx n, d.get? tx = some n → ∃ count, counts[tx]? = some count ∧ 1 ≤ n ∧ n ≤ count) ∧
    ∀ txs, ∃ entries, run counts txs = .ok entries ∧
      ∀ e ∈ entries, ∃ count, counts[e.1]? = some count ∧ e.2.Fits count ∧ e.2.Samples

theorem txPlans_spec {d : Dict Nat Nat}
    (hd : ∀ tx n, d.get? tx = some n → ∃ count, counts[tx]? = some count ∧ 1 ≤ n ∧ n ≤ count) (tx : Nat) :
    ∃ entries, txPlans counts d tx = .ok entries ∧
      ∀ e ∈ entries, ∃ count, counts[e.1]? = some count ∧ e.2.Fits count ∧ e.2.Samples := by
  cases hget : d.get? tx with
  | none => exact ⟨[], by simp only [txPlans, hget], by simp⟩
  | some n =>
      obtain ⟨count, hcount, hpos, hle⟩ := hd tx n hget
      obtain ⟨plans, hplans, hwf⟩ := getPlans_spec hpos hle
      refine ⟨plans.map fun p => (tx, p), ?_, ?_⟩
      · simp only [txPlans, hget, hcount, hplans, Loops.ok_bind]
      · intro e he
        obtain ⟨p, hp, rfl⟩ := List.mem_map.mp he
        exact ⟨count, hcount, hwf.fits p hp, hwf.samples p hp⟩

/-- The shares stay within the counts exactly when rounding never lifts one above its count. A small trace,
with fewer crash states than `TOTAL` in all, is scaled up. -/
theorem withinCounts_iff (counts : List Nat) (hsum : 0 < counts.sum) :
    WithinCounts counts ↔ ∀ count ∈ counts, 2 * count * TOTAL < (2 * count + 1) * counts.sum := by
  obtain ⟨d, hplan, hd⟩ := plan_spec hsum
  constructor
  · rintro ⟨⟨d', hplan', hwithin⟩, -⟩ count hcount
    obtain ⟨tx, htx, hget⟩ := List.getElem_of_mem hcount
    have hget' : counts[tx]? = some count := by rw [List.getElem?_eq_getElem htx, hget]
    rw [← share_le_iff hsum]
    by_cases hzero : share counts.sum count = 0
    · omega
    · rw [hplan] at hplan'
      cases hplan'
      have hentry := (hd tx _).mpr ⟨List.mem_range.mpr htx, count, hget', rfl, Nat.pos_of_ne_zero hzero⟩
      obtain ⟨c, hc, -, hle⟩ := hwithin tx _ hentry
      rw [hget', Option.some_inj] at hc
      rwa [← hc] at hle
  · intro h
    have hwithin : ∀ tx n, d.get? tx = some n → ∃ count, counts[tx]? = some count ∧ 1 ≤ n ∧ n ≤ count := by
      intro tx n hn
      obtain ⟨-, count, hcount, rfl, hpos⟩ := (hd tx n).mp hn
      exact ⟨count, hcount, hpos, (share_le_iff hsum count).mpr (h count (List.mem_of_getElem? hcount))⟩
    refine ⟨⟨d, hplan, hwithin⟩, ?_⟩
    intro txs
    obtain ⟨entries, hentries, hfit⟩ := Loops.mapM_spec
      (fun tx (_ : tx ∈ List.range txs) => txPlans_spec hwithin tx)
    refine ⟨entries.flatten, ?_, ?_⟩
    · simp only [run, hplan, hentries, Loops.ok_bind]
    · intro e he
      obtain ⟨es, hes, he⟩ := List.mem_flatten.mp he
      exact hfit es hes e he

/-- Two transactions with more crash states together than `TOTAL`. -/
theorem withinCounts_iff_large : 0 < [9000000, 3000000].sum ∧ WithinCounts [9000000, 3000000] :=
  ⟨by decide, (withinCounts_iff [9000000, 3000000] (by decide)).mpr (by decide)⟩

/-- A trace whose only transaction has one crash state: ten million targets are planned for it, in blocks
of a thousand. -/
theorem not_withinCounts_one : 0 < [1].sum ∧ ¬WithinCounts [1] := by
  refine ⟨by decide, ?_⟩
  rintro ⟨⟨d, hplan, hwithin⟩, -⟩
  obtain ⟨d', hplan', hd⟩ := plan_spec (show 0 < [1].sum by decide)
  rw [hplan] at hplan'
  cases hplan'
  have hentry : d.get? 0 = some 10000000 := (hd 0 10000000).mpr ⟨by decide, 1, rfl, by decide, by decide⟩
  obtain ⟨count, hcount, -, hle⟩ := hwithin 0 10000000 hentry
  cases hcount
  exact absurd hle (by decide)

end WitcherParallelFullEngine2

end Witcher
