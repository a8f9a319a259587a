import Mathlib.Data.Finset.Basic
import Mathlib.Data.Finset.Lattice.Lemmas
import Mathlib.Data.Fintype.Basic
import Mathlib.Tactic.FinCases
import Witcher.Dict
import Witcher.PostDominance

/-! The blocks that force the execution of a block (`lib/Witcher/WitcherParallelPDG.cpp`, and the same text
in `WitcherPDG.cpp`). The first query of a function fills two caches for all of its blocks, the forcing
blocks of each and whether the entry is one of them; later queries read them. The flag of every block is
stored under the block that was queried, so the flags that later queries read were never written. -/

namespace Witcher

/-- The two caches. -/
structure ForcerCaches (β : Type) where
  forceExecCache : Dict β (List β)
  forceAtLeastOnceCache : Dict β Bool

def ForcerCaches.empty {β : Type} : ForcerCaches β := ⟨Dict.empty, Dict.empty⟩

section Model

variable {β : Type} [DecidableEq β]

/-- What the function asks the other passes: the post-dominance frontier of a block, if the analysis has one,
`properlyDominates` of the post-dominator tree, and the number of a block. -/
structure ForcerPasses (β : Type) where
  postDominanceFrontier : β → Option (List β)
  properlyDominates : β → β → Bool
  getID : β → Nat

/-- `ForceExecCache[bb]`, which is empty if there is none yet, with more blocks at its end. -/
def ForcerCaches.addForcers (s : ForcerCaches β) (bb : β) (forcers : List β) : ForcerCaches β :=
  { s with forceExecCache := s.forceExecCache.set bb ((s.forceExecCache.get? bb).getD [] ++ forcers) }

/-- The loop body for the block `bb`, in a query for `BB`. -/
def recordForcers (F : FlowGraph β) (P : ForcerPasses β) (BB : β) (s : ForcerCaches β) (bb : β) : ForcerCaches β :=
  let s :=
    match P.postDominanceFrontier bb with
    | some cdSet => s.addForcers bb cdSet
    | none => s
  if P.properlyDominates bb F.entry then
    let s := s.addForcers bb [F.entry]
    { s with forceAtLeastOnceCache := s.forceAtLeastOnceCache.set BB true }
  else { s with forceAtLeastOnceCache := s.forceAtLeastOnceCache.set BB false }

/-- Returns the flag, the caches and the numbers. Reading a flag that is not there stores `false`. The fuel
bounds the recursion, which ends when the loop has cached `BB`. -/
def findExecForcers (F : FlowGraph β) (P : ForcerPasses β) (BB : β) :
    Nat → ForcerCaches β → Finset Nat → Option (Bool × ForcerCaches β × Finset Nat)
  | 0, _, _ => none
  | fuel + 1, s, bbNums =>
      match s.forceExecCache.get? BB with
      | some forcers =>
          let bbNums := forcers.foldl (fun nums forcer => insert (P.getID forcer) nums) bbNums
          match s.forceAtLeastOnceCache.get? BB with
          | some found => some (found, s, bbNums)
          | none => some (false, { s with forceAtLeastOnceCache := s.forceAtLeastOnceCache.set BB false }, bbNums)
      | none => findExecForcers F P BB fuel (F.blocks.foldl (recordForcers F P BB) s) bbNums

/-- One query after the other, each with an empty set as its caller has it. -/
def runQueries (F : FlowGraph β) (P : ForcerPasses β) (fuel : Nat) : List β → ForcerCaches β → Option (List (Bool × Finset Nat))
  | [], _ => some []
  | BB :: rest, s => do
      let (found, s, bbNums) ← findExecForcers F P BB fuel s ∅
      let results ← runQueries F P fuel rest s
      some ((found, bbNums) :: results)

end Model

/-! ### The answers -/

section Answers

variable {β : Type} [DecidableEq β] {F : FlowGraph β} {P : ForcerPasses β}

/-- The analyses are right on the blocks of the function, and the frontier has an entry for each. -/
structure ForcerPasses.Correct (P : ForcerPasses β) (F : FlowGraph β) : Prop where
  frontier : ∀ b ∈ F.blocks, ∃ cdSet, P.postDominanceFrontier b = some cdSet ∧ ∀ a, a ∈ cdSet ↔ F.InFrontier b a
  tree : ∀ b ∈ F.blocks, (P.properlyDominates b F.entry = true ↔ F.ProperlyPostDominates b F.entry)

/-- The blocks that force the execution of `b`. -/
def Forces (F : FlowGraph β) (b a : β) : Prop := F.InFrontier b a ∨ (a = F.entry ∧ F.ProperlyPostDominates b F.entry)

/-- The flag and the numbers that a query of `b` should return. -/
structure RightAnswer (F : FlowGraph β) (P : ForcerPasses β) (b : β) (answer : Bool × Finset Nat) : Prop where
  found : answer.1 = true ↔ F.ProperlyPostDominates b F.entry
  bbNums : ∀ n, n ∈ answer.2 ↔ ∃ a, Forces F b a ∧ P.getID a = n

/-! ### Filling the caches -/

theorem get?_addForcers (s : ForcerCaches β) (bb c : β) (forcers : List β) :
    (s.addForcers bb forcers).forceExecCache.get? c =
      if c = bb then some ((s.forceExecCache.get? bb).getD [] ++ forcers) else s.forceExecCache.get? c :=
  Dict.get?_set _ _ _ _

/-- One iteration adds the forcing blocks of `bb`, and writes the flag of `bb` under `BB`. -/
theorem recordForcers_spec (hP : P.Correct F) {bb : β} (hbb : bb ∈ F.blocks) (BB : β) (s : ForcerCaches β) :
    (∃ forcers, (∀ a, a ∈ forcers ↔ Forces F bb a) ∧ ∀ c, (recordForcers F P BB s bb).forceExecCache.get? c =
      if c = bb then some ((s.forceExecCache.get? bb).getD [] ++ forcers) else s.forceExecCache.get? c) ∧
    (recordForcers F P BB s bb).forceAtLeastOnceCache = s.forceAtLeastOnceCache.set BB (P.properlyDominates bb F.entry) := by
  obtain ⟨cdSet, hcd, hfrontier⟩ := hP.frontier bb hbb
  have htree := hP.tree bb hbb
  cases hdom : P.properlyDominates bb F.entry with
  | true =>
      refine ⟨⟨cdSet ++ [F.entry], ?_, ?_⟩, ?_⟩
      · intro a
        rw [List.mem_append, List.mem_singleton, hfrontier, Forces, ← htree, hdom]
        simp
      · intro c
        simp only [recordForcers, hcd, hdom, if_true, get?_addForcers]
        by_cases hc : c = bb
        · simp [hc]
        · simp [hc]
      · simp only [recordForcers, hcd, hdom, if_true]
        rfl
  | false =>
      refine ⟨⟨cdSet, ?_, ?_⟩, ?_⟩
      · intro a
        rw [hfrontier, Forces, ← htree, hdom]
        simp
      · intro c
        simp only [recordForcers, hcd, hdom, Bool.false_eq_true, if_false, get?_addForcers]
      · simp only [recordForcers, hcd, hdom, Bool.false_eq_true, if_false]
        rfl

/-- The cached forcing blocks are right, and those of the blocks `done` are there. -/
structure Filled (F : FlowGraph β) (done : List β) (s : ForcerCaches β) : Prop where
  sound : ∀ b forcers, s.forceExecCache.get? b = some forcers → ∀ a ∈ forcers, Forces F b a
  complete : ∀ b ∈ done, ∃ forcers, s.forceExecCache.get? b = some forcers ∧ ∀ a, Forces F b a → a ∈ forcers

theorem Filled.record (hP : P.Correct F) {done : List β} {s : ForcerCaches β} (h : Filled F done s) {bb : β}
    (hbb : bb ∈ F.blocks) (BB : β) : Filled F (done ++ [bb]) (recordForcers F P BB s bb) := by
  obtain ⟨⟨forcers, hforcers, hget⟩, -⟩ := recordForcers_spec hP hbb BB s
  constructor
  · intro b l hl a ha
    rw [hget] at hl
    by_cases hb : b = bb
    · rw [if_pos hb] at hl
      cases hl
      rw [hb]
      rcases List.mem_append.mp ha with ha | ha
      · cases hold : s.forceExecCache.get? bb with
        | none =>
            rw [hold] at ha
            cases ha
        | some l =>
            rw [hold] at ha
            exact h.sound bb l hold a ha
      · exact (hforcers a).mp ha
    · rw [if_neg hb] at hl
      exact h.sound b l hl a ha
  · intro b hb
    rw [hget]
    by_cases heq : b = bb
    · rw [if_pos heq, heq]
      exact ⟨_, rfl, fun a ha => List.mem_append_right _ ((hforcers a).mpr ha)⟩
    · rw [if_neg heq]
      rcases List.mem_append.mp hb with hb | hb
      · exact h.complete b hb
      · exact absurd (List.mem_singleton.mp hb) heq

/-- The loop fills the cache for its blocks. Of the flags it leaves one, that of the last block, under the block
that was queried. -/
theorem foldl_recordForcers (hP : P.Correct F) (BB : β) {bs : List β} (hbs : ∀ b ∈ bs, b ∈ F.blocks) {done : List β}
    {s : ForcerCaches β} (h : Filled F done s) :
    Filled F (done ++ bs) (bs.foldl (recordForcers F P BB) s) ∧
      ∀ c, (bs.foldl (recordForcers F P BB) s).forceAtLeastOnceCache.get? c =
        if c = BB then (bs.getLast?.map (P.properlyDominates · F.entry)).or (s.forceAtLeastOnceCache.get? c)
        else s.forceAtLeastOnceCache.get? c := by
  induction bs generalizing done s with
  | nil =>
      rw [List.append_nil]
      exact ⟨h, fun c => by simp⟩
  | cons bb bs ih =>
      have hbb : bb ∈ F.blocks := hbs bb List.mem_cons_self
      obtain ⟨hfilled, hflag⟩ := ih (fun b hb => hbs b (List.mem_cons_of_mem bb hb)) (h.record hP hbb BB)
      rw [List.append_cons, List.foldl_cons]
      refine ⟨hfilled, fun c => ?_⟩
      rw [hflag c, (recordForcers_spec hP hbb BB s).2, Dict.get?_set]
      by_cases hc : c = BB
      · simp only [hc, if_true]
        cases bs with
        | nil => simp
        | cons b bs =>
            have hlast : (b :: bs).getLast? = some ((b :: bs).getLast (List.cons_ne_nil b bs)) :=
              List.getLast?_eq_some_getLast _
            rw [List.getLast?_cons_cons, hlast]
            rfl
      · simp only [hc, if_false]

/-! ### Queries -/

theorem mem_foldl_insert_getID {α : Type} (getID : α → Nat) (forcers : List α) (nums : Finset Nat) (n : Nat) :
    n ∈ forcers.foldl (fun nums forcer => insert (getID forcer) nums) nums ↔ n ∈ nums ∨ ∃ a ∈ forcers, getID a = n := by
  induction forcers generalizing nums with
  | nil => simp
  | cons forcer forcers ih =>
      rw [List.foldl_cons, ih, Finset.mem_insert]
      simp only [List.mem_cons, exists_eq_or_imp]
      constructor
      · rintro ((h | h) | h)
        · exact .inr (.inl h.symm)
        · exact .inl h
        · exact .inr (.inr h)
      · rintro (h | h | h)
        · exact .inl (.inr h)
        · exact .inl (.inl h.symm)
        · exact .inr h

/-- The caches after the first query, of `b₀`: one flag was written. -/
structure Queried (F : FlowGraph β) (P : ForcerPasses β) (b₀ : β) (s : ForcerCaches β) : Prop where
  filled : Filled F F.blocks s
  first : s.forceAtLeastOnceCache.get? b₀ = some (P.properlyDominates F.last F.entry)
  others : ∀ c, c ≠ b₀ → s.forceAtLeastOnceCache.get? c = none ∨ s.forceAtLeastOnceCache.get? c = some false

/-- The flag that a query returns. -/
def returnedFlag (F : FlowGraph β) (P : ForcerPasses β) (b₀ b : β) : Bool :=
  if b = b₀ then P.properlyDominates F.last F.entry else false

/-- A query of a filled function reads the caches. -/
theorem Queried.find {b₀ b : β} {s : ForcerCaches β} (h : Queried F P b₀ s) (hb : b ∈ F.blocks) (fuel : Nat) :
    ∃ s' nums, findExecForcers F P b (fuel + 1) s ∅ = some (returnedFlag F P b₀ b, s', nums) ∧ Queried F P b₀ s' ∧
      ∀ n, n ∈ nums ↔ ∃ a, Forces F b a ∧ P.getID a = n := by
  obtain ⟨forcers, hget, hcomplete⟩ := h.filled.complete b hb
  have hsound := h.filled.sound b forcers hget
  have hnums : ∀ n, n ∈ forcers.foldl (fun nums forcer => insert (P.getID forcer) nums) (∅ : Finset Nat) ↔
      ∃ a, Forces F b a ∧ P.getID a = n := by
    intro n
    rw [mem_foldl_insert_getID]
    simp only [Finset.notMem_empty, false_or]
    exact exists_congr fun a => and_congr_left fun _ => ⟨hsound a, hcomplete a⟩
  by_cases hfirst : b = b₀
  · refine ⟨s, _, ?_, h, hnums⟩
    rw [returnedFlag, if_pos hfirst, findExecForcers, hget, hfirst, h.first]
  · rcases h.others b hfirst with hflag | hflag
    · refine ⟨{ s with forceAtLeastOnceCache := s.forceAtLeastOnceCache.set b false }, _, ?_, ?_, hnums⟩
      · rw [returnedFlag, if_neg hfirst, findExecForcers, hget, hflag]
      · refine ⟨⟨h.filled.sound, h.filled.complete⟩, ?_, ?_⟩
        · rw [Dict.get?_set, if_neg (Ne.symm hfirst)]
          exact h.first
        · intro c hc
          rw [Dict.get?_set]
          split_ifs
          · exact .inr rfl
          · exact h.others c hc
    · refine ⟨s, _, ?_, h, hnums⟩
      rw [returnedFlag, if_neg hfirst, findExecForcers, hget, hflag]

/-- The first query fills the caches and reads them. -/
theorem find_first (hP : P.Correct F) {b₀ : β} (hb : b₀ ∈ F.blocks) (fuel : Nat) :
    ∃ s' nums, findExecForcers F P b₀ (fuel + 2) ForcerCaches.empty ∅ = some (returnedFlag F P b₀ b₀, s', nums) ∧
      Queried F P b₀ s' ∧ ∀ n, n ∈ nums ↔ ∃ a, Forces F b₀ a ∧ P.getID a = n := by
  have hempty : Filled F [] (ForcerCaches.empty : ForcerCaches β) := ⟨by simp [ForcerCaches.empty], by simp⟩
  obtain ⟨hfilled, hflag⟩ := foldl_recordForcers hP b₀ (fun b hb => hb) hempty
  rw [List.nil_append] at hfilled
  have hlast : F.blocks.getLast? = some F.last := List.getLast?_eq_some_getLast _
  have hqueried : Queried F P b₀ (F.blocks.foldl (recordForcers F P b₀) ForcerCaches.empty) := by
    refine ⟨hfilled, ?_, ?_⟩
    · rw [hflag, if_pos rfl, hlast]
      rfl
    · intro c hc
      rw [hflag, if_neg hc]
      exact .inl rfl
  obtain ⟨s', nums, hfind, hs', hnums⟩ := hqueried.find hb fuel
  refine ⟨s', nums, ?_, hs', hnums⟩
  rw [findExecForcers]
  exact hfind

theorem rightAnswer_iff {b₀ b : β} {answer : Bool × Finset Nat} (hflag : answer.1 = returnedFlag F P b₀ b)
    (hnums : ∀ n, n ∈ answer.2 ↔ ∃ a, Forces F b a ∧ P.getID a = n) :
    RightAnswer F P b answer ↔ (returnedFlag F P b₀ b = true ↔ F.ProperlyPostDominates b F.entry) := by
  rw [← hflag]
  exact ⟨fun h => h.found, fun h => ⟨h, hnums⟩⟩

/-- The answers to the queries after the first. -/
theorem runQueries_spec {b₀ : β} {qs : List β} (hqs : ∀ b ∈ qs, b ∈ F.blocks) {s : ForcerCaches β} (h : Queried F P b₀ s)
    (fuel : Nat) :
    ∃ results, runQueries F P (fuel + 1) qs s = some results ∧ (List.Forall₂ (RightAnswer F P) qs results ↔
      ∀ b ∈ qs, (returnedFlag F P b₀ b = true ↔ F.ProperlyPostDominates b F.entry)) := by
  induction qs generalizing s with
  | nil => exact ⟨[], rfl, by simp⟩
  | cons b qs ih =>
      obtain ⟨s', nums, hfind, hs', hnums⟩ := h.find (hqs b List.mem_cons_self) fuel
      obtain ⟨results, hrun, hresults⟩ := ih (fun c hc => hqs c (List.mem_cons_of_mem b hc)) hs'
      refine ⟨(returnedFlag F P b₀ b, nums) :: results, ?_, ?_⟩
      · simp only [runQueries, hfind, hrun, Option.bind_eq_bind, Option.bind_some]
      · rw [List.forall₂_cons, hresults, rightAnswer_iff rfl hnums, List.forall_mem_cons]

/-- Every query of the sequence returns, whatever came before it, the right flag and the right numbers. -/
def AllRight (F : FlowGraph β) (P : ForcerPasses β) (fuel : Nat) (qs : List β) : Prop :=
  ∃ results, runQueries F P fuel qs ForcerCaches.empty = some results ∧ List.Forall₂ (RightAnswer F P) qs results

/-- All answers are right exactly if the flag of the first block queried is that of the last block of the
function, and no other queried block properly post-dominates the entry. -/
theorem allRight_iff (F : FlowGraph β) (P : ForcerPasses β) (hP : P.Correct F) (fuel : Nat) (qs : List β)
    (hqs : ∀ b ∈ qs, b ∈ F.blocks) :
    AllRight F P (fuel + 2) qs ↔ ∀ b₀ rest, qs = b₀ :: rest →
      (F.ProperlyPostDominates F.last F.entry ↔ F.ProperlyPostDominates b₀ F.entry) ∧
        ∀ b ∈ rest, b ≠ b₀ → ¬F.ProperlyPostDominates b F.entry := by
  cases qs with
  | nil => exact ⟨fun _ b₀ rest h => (by cases h), fun _ => ⟨[], rfl, .nil⟩⟩
  | cons b₀ rest =>
      have hlast := hP.tree F.last (List.getLast_mem _)
      obtain ⟨s, nums, hfind, hs, hnums⟩ := find_first hP (hqs b₀ List.mem_cons_self) fuel
      obtain ⟨results, hrun, hresults⟩ := runQueries_spec (fun c hc => hqs c (List.mem_cons_of_mem b₀ hc)) hs (fuel + 1)
      have hall : runQueries F P (fuel + 2) (b₀ :: rest) ForcerCaches.empty =
          some ((returnedFlag F P b₀ b₀, nums) :: results) := by
        simp only [runQueries, hfind, hrun, Option.bind_eq_bind, Option.bind_some]
      have hfirst : (returnedFlag F P b₀ b₀ = true ↔ F.ProperlyPostDominates b₀ F.entry) ↔
          (F.ProperlyPostDominates F.last F.entry ↔ F.ProperlyPostDominates b₀ F.entry) := by
        rw [returnedFlag, if_pos rfl, hlast]
      have hright : RightAnswer F P b₀ (returnedFlag F P b₀ b₀, nums) ↔
          (returnedFlag F P b₀ b₀ = true ↔ F.ProperlyPostDominates b₀ F.entry) := rightAnswer_iff rfl hnums
      have hanswers : AllRight F P (fuel + 2) (b₀ :: rest) ↔
          ∀ b ∈ b₀ :: rest, (returnedFlag F P b₀ b = true ↔ F.ProperlyPostDominates b F.entry) := by
        rw [List.forall_mem_cons, ← hresults, ← hright, ← List.forall₂_cons]
        constructor
        · rintro ⟨results', hrun', hright⟩
          rw [hall] at hrun'
          cases hrun'
          exact hright
        · exact fun h => ⟨_, hall, h⟩
      rw [hanswers]
      constructor
      · rintro h b₁ rest₁ heq
        cases heq
        refine ⟨hfirst.mp (h b₀ List.mem_cons_self), ?_⟩
        intro b hb hne hdom
        have hflag := (h b (List.mem_cons_of_mem b₀ hb)).mpr hdom
        rw [returnedFlag, if_neg hne] at hflag
        cases hflag
      · intro h b hb
        obtain ⟨hb₀, hrest⟩ := h b₀ rest rfl
        by_cases heq : b = b₀
        · rw [heq]
          exact hfirst.mpr hb₀
        · rw [returnedFlag, if_neg heq]
          rcases List.mem_cons.mp hb with hb | hb
          · exact absurd hb heq
          · exact ⟨fun h => (by cases h), fun hdom => absurd hdom (hrest b hb heq)⟩

end Answers

/-! ### A branch without an else -/

/-- The entry goes to the body or past it: `if (c) { body } tail`. -/
def ifThen : FlowGraph (Fin 3) where
  entry := 0
  others := [1, 2]
  succs b := if b = 0 then [1, 2] else if b = 1 then [2] else []
  exits := [2]

/-- What the analyses say of it. -/
def ifThenPasses : ForcerPasses (Fin 3) where
  postDominanceFrontier b := some (if b = 1 then [0] else [])
  properlyDominates b a := decide (b = 2 ∧ a ≠ 2)
  getID b := b.val

theorem ifThen_escapes (b a : Fin 3) : ifThen.Escapes b a ↔ a ≠ b ∧ b ≠ 2 := by
  have hexits : ifThen.exits = [2] := rfl
  have htail : ifThen.Escapes b 2 ↔ b ≠ 2 := by
    rw [FlowGraph.escapes_iff, hexits]
    simp [eq_comm]
  have hbody : ifThen.Escapes b 1 ↔ 1 ≠ b ∧ b ≠ 2 := by
    have hsuccs : ifThen.succs 1 = [2] := rfl
    rw [FlowGraph.escapes_iff, hexits, hsuccs]
    simp [htail]
  have hentry : ifThen.Escapes b 0 ↔ 0 ≠ b ∧ b ≠ 2 := by
    have hsuccs : ifThen.succs 0 = [1, 2] := rfl
    rw [FlowGraph.escapes_iff, hexits, hsuccs]
    simp only [List.mem_cons, List.not_mem_nil, or_false, exists_eq_or_imp, exists_eq_left, htail, hbody]
    clear htail hbody
    revert b
    decide
  fin_cases a
  · exact hentry
  · exact hbody
  · show ifThen.Escapes b 2 ↔ 2 ≠ b ∧ b ≠ 2
    rw [htail]
    exact ⟨fun h => ⟨h.symm, h⟩, fun h => h.2⟩

theorem ifThen_postDominates (b a : Fin 3) : ifThen.PostDominates b a ↔ a = b ∨ b = 2 := by
  rw [FlowGraph.PostDominates, ifThen_escapes, not_and_or, not_not, not_not]

theorem ifThen_properlyPostDominates (b a : Fin 3) : ifThen.ProperlyPostDominates b a ↔ b = 2 ∧ a ≠ 2 := by
  rw [FlowGraph.ProperlyPostDominates, ifThen_postDominates]
  revert b a
  decide

theorem ifThenPasses_correct : ifThenPasses.Correct ifThen where
  frontier b _ := by
    refine ⟨if b = 1 then [0] else [], rfl, fun a => ?_⟩
    simp only [FlowGraph.InFrontier, ifThen_postDominates, ifThen_properlyPostDominates]
    revert b a
    decide
  tree b _ := by
    rw [ifThen_properlyPostDominates]
    exact decide_eq_true_iff

/-- The blocks are queried from the last one on. -/
theorem allRight_iff_last : AllRight ifThen ifThenPasses 2 [2, 1, 0] := by
  refine (allRight_iff ifThen ifThenPasses ifThenPasses_correct 0 [2, 1, 0] (by decide)).mpr ?_
  intro b₀ rest h
  cases h
  refine ⟨Iff.rfl, fun b _ hb => ?_⟩
  rw [ifThen_properlyPostDominates]
  exact fun hdom => hb hdom.1

/-- The body is not executed on every call, but its flag is that of the tail. -/
theorem not_allRight_body : ifThenPasses.Correct ifThen ∧
    runQueries ifThen ifThenPasses 2 [1] ForcerCaches.empty = some [(true, {0})] ∧
      ¬ifThen.ProperlyPostDominates 1 ifThen.entry ∧ ¬AllRight ifThen ifThenPasses 2 [1] := by
  have hrun : runQueries ifThen ifThenPasses 2 [1] ForcerCaches.empty = some [(true, {0})] := by decide +kernel
  have hbody : ¬ifThen.ProperlyPostDominates 1 ifThen.entry := by
    rw [ifThen_properlyPostDominates]
    decide
  refine ⟨ifThenPasses_correct, hrun, hbody, ?_⟩
  rintro ⟨results, hresults, hright⟩
  rw [hrun] at hresults
  cases hresults
  cases hright with
  | cons hanswer _ => exact hbody (hanswer.found.mp rfl)

end Witcher
