import Witcher.ControlDependences
import Witcher.ValueSources
import Witcher.Worklists

/-! Dynamic backwards slices (`findSlice` of `Giri.cpp`). The worklist holds values to be normalised; those of the slice are
normal or have no execution in the trace. -/

namespace Witcher.TraceScan

open Loops Worklists

variable {ν β φ : Type} [DecidableEq φ] [DecidableEq ν] [DecidableEq β]

/-- What the passes know of the functions. -/
structure ForcerAnalyses (β φ : Type) where
  graph : φ → FlowGraph β
  passes : ForcerPasses β

structure SliceState (ν β : Type) where
  Worklist : List (DynValue ν)
  DynSlice : List (DynValue ν)
  processedBBs : List (DynBasicBlock β)
  caches : ForcerCaches β
  buggy : BuggyValues ν β

def SliceState.init (initial : DynValue ν) : SliceState ν β := ⟨[initial], [], [], .empty, ⟨[], []⟩⟩

def SliceState.toState (s : SliceState ν β) : Worklists.State (DynValue ν) := ⟨s.Worklist, s.DynSlice⟩

/-- The dynamic block of a value. Only instructions have one. -/
def Module.dynamicBlock (M : Module ν β φ) (DV : DynValue ν) : Option (DynBasicBlock β) :=
  match M.kind DV.V with
  | .argument _ _ => none
  | _ => (M.blockOf DV.V).map fun BB => ⟨BB, DV.index⟩

namespace LoadedTrace

variable (T : LoadedTrace ν β φ) (M : Module ν β φ) (A : ForcerAnalyses β φ)

/-- The terminator of the block that forced the execution of the block of the value. Every execution is looked at once. -/
def controlSources (s : SliceState ν β) (DV : DynValue ν) : Except SearchError (List (DynValue ν) × SliceState ν β) :=
  match M.dynamicBlock DV with
  | none => .ok ([], s)
  | some DBB =>
      let F := A.graph (T.getParent DBB.BB)
      if DBB.BB = F.entry ∨ DBB ∈ s.processedBBs then .ok ([], s)
      else
        match findExecForcers F A.passes DBB.BB 2 s.caches ∅ with
        | none => .error .assertionFails
        | some (found, caches, forcesExecSet) => do
            let (forcer, buggy) ← T.getExecForcer s.buggy DBB (forcesExecSet.sort.map UInt32.ofNat)
            let s := { s with processedBBs := DBB :: s.processedBBs, caches := caches, buggy := buggy }
            match forcer with
            | none => .ok ([], s)
            | some forcer =>
                if forcer.BB ≠ F.entry ∨ found = false then .ok ([T.dynValue (M.terminator forcer.BB) forcer.index], s)
                else .ok ([], s)

/-- One iteration of the loop. A value that cannot be normalised stays as it is. -/
def sliceStep (s : SliceState ν β) : Except SearchError (SliceState ν β) :=
  match s.Worklist with
  | [] => .ok s
  | DV :: Worklist => do
      let (normalized, buggy) ← T.normalize M.blockOf s.buggy DV
      let DV := normalized.getD DV
      let s := { s with Worklist := Worklist, buggy := buggy }
      if s.DynSlice.contains DV then .ok s
      else do
        let (control, s) ← T.controlSources M A { s with DynSlice := DV :: s.DynSlice } DV
        let (sources, buggy) ← T.getSourcesFor M s.buggy DV
        .ok { s with Worklist := sources.reverse ++ (control ++ s.Worklist), buggy := buggy }

/-! ### The runs of the loop -/

/-- The states of the loop. -/
inductive SliceRun (initial : DynValue ν) : SliceState ν β → Prop
  | init : SliceRun initial (.init initial)
  | step {s s' : SliceState ν β} (h : SliceRun initial s) (hne : s.Worklist ≠ []) (hstep : T.sliceStep M A s = .ok s') :
      SliceRun initial s'

/-- The iteration at `s` takes the value `d` in the form `n`, which depends on the values that were not found before. After that
they are those of `t`. -/
structure Takes (s : SliceState ν β) (d n : DynValue ν) (t : SliceState ν β) : Prop where
  head : s.Worklist = d :: t.Worklist
  normal : ∃ normalized, T.normalize M.blockOf s.buggy d = .ok (normalized, t.buggy) ∧ n = normalized.getD d
  rest_eq : t.DynSlice = s.DynSlice ∧ t.processedBBs = s.processedBBs ∧ t.caches = s.caches

/-- A form that the value was taken in. -/
def NormalForm (initial d n : DynValue ν) : Prop := ∃ s t, T.SliceRun M A initial s ∧ T.Takes M s d n t

/-- What was added to the worklist for a value, when it was put into the slice. -/
def Dependences (initial n : DynValue ν) (new : List (DynValue ν)) : Prop :=
  ∃ s d t control u sources buggy, T.SliceRun M A initial s ∧ T.Takes M s d n t ∧ n ∉ s.DynSlice ∧
    T.controlSources M A { t with DynSlice := n :: t.DynSlice } n = .ok (control, u) ∧
      T.getSourcesFor M u.buggy n = .ok (sources, buggy) ∧ new = sources.reverse ++ control

/-- When the first value of the execution was taken, the execution that forced it was searched. If it has to be in
the slice, its terminator satisfies `C`. -/
def ControlDone (initial : DynValue ν) (C : DynValue ν → Prop) (DBB : DynBasicBlock β) : Prop :=
  ∃ s d n t found caches forcesExecSet forcer buggy, T.SliceRun M A initial s ∧ T.Takes M s d n t ∧ DBB ∉ s.processedBBs ∧
    M.dynamicBlock n = some DBB ∧
      findExecForcers (A.graph (T.getParent DBB.BB)) A.passes DBB.BB 2 s.caches ∅ = some (found, caches, forcesExecSet) ∧
        T.getExecForcer t.buggy DBB (forcesExecSet.sort.map UInt32.ofNat) = .ok (forcer, buggy) ∧
          ∀ f ∈ forcer, f.BB ≠ (A.graph (T.getParent DBB.BB)).entry ∨ found = false → C (T.dynValue (M.terminator f.BB) f.index)

variable {T M A} {s s' t : SliceState ν β} {initial DV d n : DynValue ν} {control : List (DynValue ν)} {C D : DynValue ν → Prop}
  {DBB : DynBasicBlock β}

theorem ControlDone.mono (h : T.ControlDone M A initial C DBB) (hCD : ∀ t, C t → D t) : T.ControlDone M A initial D DBB := by
  obtain ⟨s, d, n, t, found, caches, forcesExecSet, forcer, buggy, hs, htakes, hnew, hDBB, hfind, hforcer, hC⟩ := h
  exact ⟨s, d, n, t, found, caches, forcesExecSet, forcer, buggy, hs, htakes, hnew, hDBB, hfind, hforcer,
    fun f hf hneeded => hCD _ (hC f hf hneeded)⟩

omit [DecidableEq ν] in
theorem getExecForcer_lt {buggy buggy' : BuggyValues ν β} {bbnums : List UInt32} {forcer : DynBasicBlock β}
    (h : T.getExecForcer buggy DBB bbnums = .ok (some forcer, buggy')) : forcer.index < T.trace.length := by
  obtain ⟨⟨normalized, buggy''⟩, -, h⟩ := bind_ok h
  cases normalized with
  | none => cases h
  | some DBB =>
      simp only at h
      match hentry : T.trace[DBB.index]? with
      | none =>
          rw [hentry] at h
          cases h
      | some entry =>
          rw [hentry] at h
          obtain ⟨index, hindex, h⟩ := bind_ok h
          by_cases hmax : index = T.maxIndex
          · rw [if_pos hmax] at h
            cases h
          · have hlt := findPreviousID_lt hindex hmax
            rw [if_neg hmax, List.getElem?_eq_getElem hlt] at h
            simp only at h
            split_ifs at h
            cases h
            exact hlt

/-- What a search for a forcer leaves, in the terms of its queries. -/
structure Searched (T : LoadedTrace ν β φ) (M : Module ν β φ) (A : ForcerAnalyses β φ) (s : SliceState ν β)
    (DBB : DynBasicBlock β) (control : List (DynValue ν)) : Prop where
  new : DBB ∉ s.processedBBs
  result : ∃ found caches forcesExecSet forcer buggy,
    findExecForcers (A.graph (T.getParent DBB.BB)) A.passes DBB.BB 2 s.caches ∅ = some (found, caches, forcesExecSet) ∧
      T.getExecForcer s.buggy DBB (forcesExecSet.sort.map UInt32.ofNat) = .ok (forcer, buggy) ∧
        ∀ f ∈ forcer, f.BB ≠ (A.graph (T.getParent DBB.BB)).entry ∨ found = false →
          T.dynValue (M.terminator f.BB) f.index ∈ control

omit [DecidableEq ν] in
/-- A block is looked at unless it is an entry or was looked at before. -/
theorem controlSources_spec (h : T.controlSources M A s DV = .ok (control, s')) :
    s'.Worklist = s.Worklist ∧ s'.DynSlice = s.DynSlice ∧ T.InTrace control ∧
      ((s'.processedBBs = s.processedBBs ∧ ∀ DBB, M.dynamicBlock DV = some DBB →
          DBB.BB = (A.graph (T.getParent DBB.BB)).entry ∨ DBB ∈ s.processedBBs) ∨
        ∃ DBB, M.dynamicBlock DV = some DBB ∧ s'.processedBBs = DBB :: s.processedBBs ∧ Searched T M A s DBB control) := by
  rw [controlSources] at h
  match hDBB : M.dynamicBlock DV with
  | none =>
      rw [hDBB] at h
      cases h
      exact ⟨rfl, rfl, inTrace_nil, .inl ⟨rfl, fun _ h => nomatch h⟩⟩
  | some DBB =>
      rw [hDBB] at h
      simp only at h
      by_cases hskip : DBB.BB = (A.graph (T.getParent DBB.BB)).entry ∨ DBB ∈ s.processedBBs
      · rw [if_pos hskip] at h
        cases h
        refine ⟨rfl, rfl, inTrace_nil, .inl ⟨rfl, ?_⟩⟩
        rintro _ ⟨⟩
        exact hskip
      rw [if_neg hskip] at h
      have hnew : DBB ∉ s.processedBBs := fun hmem => hskip (.inr hmem)
      match hfind : findExecForcers (A.graph (T.getParent DBB.BB)) A.passes DBB.BB 2 s.caches ∅ with
      | none =>
          rw [hfind] at h
          cases h
      | some (found, caches, forcesExecSet) =>
          rw [hfind] at h
          obtain ⟨⟨forcer, buggy⟩, hforcer, h⟩ := bind_ok h
          cases forcer with
          | none =>
              cases h
              exact ⟨rfl, rfl, inTrace_nil,
                .inr ⟨DBB, rfl, rfl, hnew, _, _, _, _, _, hfind, hforcer, fun _ hmem => nomatch hmem⟩⟩
          | some forcer =>
              simp only at h
              split_ifs at h with hcondition
              · cases h
                refine ⟨rfl, rfl, inTrace_singleton (getExecForcer_lt hforcer), .inr ⟨DBB, rfl, rfl, hnew, ?_⟩⟩
                refine ⟨_, _, _, _, _, hfind, hforcer, ?_⟩
                rintro _ ⟨⟩ -
                exact List.mem_singleton_self _
              · cases h
                refine ⟨rfl, rfl, inTrace_nil, .inr ⟨DBB, rfl, rfl, hnew, _, _, _, _, _, hfind, hforcer, ?_⟩⟩
                rintro _ ⟨⟩ hneeded
                exact (hcondition hneeded).elim

/-- What one iteration of a run does: the steps of the worklist, and the blocks that were looked at. -/
theorem SliceRun.sliceStep_spec (hrun : T.SliceRun M A initial s) (hne : s.Worklist ≠ []) (h : T.sliceStep M A s = .ok s') :
    Worklists.Step (T.NormalForm M A initial) (T.Dependences M A initial) s.toState s'.toState ∧
      ((s'.DynSlice = s.DynSlice ∧ s'.processedBBs = s.processedBBs) ∨
        ∃ n, s'.DynSlice = n :: s.DynSlice ∧
          ((s'.processedBBs = s.processedBBs ∧ ∀ DBB, M.dynamicBlock n = some DBB →
              DBB.BB = (A.graph (T.getParent DBB.BB)).entry ∨ DBB ∈ s.processedBBs) ∨
            ∃ DBB, M.dynamicBlock n = some DBB ∧ s'.processedBBs = DBB :: s.processedBBs ∧
              T.ControlDone M A initial (· ∈ s'.Worklist) DBB)) := by
  obtain ⟨worklist, slice, processed, caches, buggy⟩ := s
  cases worklist with
  | nil => exact (hne rfl).elim
  | cons DV rest =>
      obtain ⟨⟨normalized, buggy'⟩, hnormalize, h⟩ := bind_ok h
      have htakes : T.Takes M ⟨DV :: rest, slice, processed, caches, buggy⟩ DV (normalized.getD DV)
          ⟨rest, slice, processed, caches, buggy'⟩ := ⟨rfl, ⟨_, hnormalize, rfl⟩, rfl, rfl, rfl⟩
      have hnorm : T.NormalForm M A initial DV (normalized.getD DV) := ⟨_, _, hrun, htakes⟩
      simp only at h
      by_cases hmem : normalized.getD DV ∈ slice
      · rw [if_pos (List.contains_iff_mem.mpr hmem)] at h
        cases h
        exact ⟨.skip hnorm hmem, .inl ⟨rfl, rfl⟩⟩
      · rw [if_neg (mt List.contains_iff_mem.mp hmem)] at h
        obtain ⟨⟨control, s''⟩, hcontrol, h⟩ := bind_ok h
        obtain ⟨⟨sources, buggy''⟩, hsources, h⟩ := bind_ok h
        cases h
        obtain ⟨hwork, hslice, -, hprocessed⟩ := controlSources_spec hcontrol
        simp only at hwork hslice
        refine ⟨?_, .inr ⟨_, hslice, hprocessed.imp id ?_⟩⟩
        · rw [SliceState.toState, SliceState.toState, hwork, hslice, ← List.append_assoc]
          exact .process hnorm hmem ⟨_, _, _, _, _, _, _, hrun, htakes, hmem, hcontrol, hsources, rfl⟩
        · rintro ⟨DBB, hDBB, heq, hnew, found, caches', forcesExecSet, forcer, buggy₁, hfind, hforcer, hneeded⟩
          exact ⟨DBB, hDBB, heq, _, _, _, _, _, _, _, _, _, hrun, htakes, hnew, hDBB, hfind, hforcer,
            fun f hf hcondition => List.mem_append_right _ (List.mem_append_left _ (hneeded f hf hcondition))⟩

/-! ### What is in a slice -/

/-- The worklist invariant, and every execution that a value of the slice is of was looked at. -/
structure SliceInv (T : LoadedTrace ν β φ) (M : Module ν β φ) (A : ForcerAnalyses β φ) (initial : DynValue ν)
    (s : SliceState ν β) : Prop where
  worklist : Worklists.Inv (T.NormalForm M A initial) (T.Dependences M A initial) initial s.toState
  looked : ∀ d ∈ s.DynSlice, ∀ DBB, M.dynamicBlock d = some DBB →
    DBB.BB = (A.graph (T.getParent DBB.BB)).entry ∨ DBB ∈ s.processedBBs
  done : ∀ DBB ∈ s.processedBBs, T.ControlDone M A initial (Worklists.Handled (T.NormalForm M A initial) s.toState) DBB

theorem sliceInv_init : SliceInv T M A initial (.init initial) where
  worklist := Worklists.inv_initial
  looked := fun _ hmem => nomatch hmem
  done := fun _ hmem => nomatch hmem

theorem SliceInv.step (h : SliceInv T M A initial s) (hrun : T.SliceRun M A initial s) (hne : s.Worklist ≠ [])
    (hstep : T.sliceStep M A s = .ok s') : SliceInv T M A initial s' := by
  obtain ⟨hwork, hblocks⟩ := hrun.sliceStep_spec hne hstep
  have hdone : ∀ DBB ∈ s.processedBBs,
      T.ControlDone M A initial (Worklists.Handled (T.NormalForm M A initial) s'.toState) DBB :=
    fun DBB hDBB => (h.done DBB hDBB).mono fun _ ht => hwork.handled ht
  rcases hblocks with ⟨hslice, hprocessed⟩ | ⟨n, hslice, ⟨hprocessed, hn⟩ | ⟨DBB, hDBB, hprocessed, hnew⟩⟩
  · refine ⟨hwork.inv h.worklist, ?_, ?_⟩
    · rw [hslice, hprocessed]
      exact h.looked
    · rw [hprocessed]
      exact hdone
  · refine ⟨hwork.inv h.worklist, ?_, ?_⟩
    · rw [hslice, hprocessed]
      exact List.forall_mem_cons.mpr ⟨hn, h.looked⟩
    · rw [hprocessed]
      exact hdone
  · refine ⟨hwork.inv h.worklist, ?_, ?_⟩
    · rw [hslice, hprocessed]
      refine List.forall_mem_cons.mpr ⟨fun DBB' hDBB' => .inr ?_, fun d hd DBB' hDBB' => ?_⟩
      · rw [Option.some.inj (hDBB'.symm.trans hDBB)]
        exact List.mem_cons_self
      · exact (h.looked d hd DBB' hDBB').imp_right (List.mem_cons_of_mem _)
    · rw [hprocessed]
      exact List.forall_mem_cons.mpr ⟨hnew.mono fun _ ht => .inl ht, hdone⟩

theorem SliceRun.sliceInv (h : T.SliceRun M A initial s) : SliceInv T M A initial s := by
  induction h with
  | init => exact sliceInv_init
  | step hrun hne hstep ih => exact ih.step hrun hne hstep

theorem NormalForm.lt (h : T.NormalForm M A initial d n) (hd : d.index < T.trace.length) : n.index < T.trace.length := by
  obtain ⟨s, t, -, -, ⟨normalized, hnormalize, rfl⟩, -⟩ := h
  cases normalized with
  | none => exact hd
  | some d' => exact normalize_lt hnormalize hd

theorem Dependences.lt {new : List (DynValue ν)} (h : T.Dependences M A initial n new) (hn : n.index < T.trace.length) :
    T.InTrace new := by
  obtain ⟨s, d, t, control, u, sources, buggy, -, -, -, hcontrol, hsources, rfl⟩ := h
  exact InTrace.append (fun e he => getSourcesFor_inTrace hn sources buggy hsources e (List.mem_reverse.mp he))
    (controlSources_spec hcontrol).2.2.1

/-- A slice has the values that the initial one leads to, each of them once and at a record of the trace. When the loop is over,
the slice is closed under what was found for its values on the way: their sources and the terminators of the blocks that forced
the executions of theirs. -/
theorem SliceRun.slice_closed (h : T.SliceRun M A initial s) (hinitial : initial.index < T.trace.length) :
    s.DynSlice.Nodup ∧
      (∀ d ∈ s.DynSlice, d.index < T.trace.length ∧
        ∃ x, Worklists.Demanded (T.NormalForm M A initial) (T.Dependences M A initial) initial x ∧
          T.NormalForm M A initial x d) ∧
      (s.Worklist = [] → (∃ n ∈ s.DynSlice, T.NormalForm M A initial initial n) ∧ ∀ d ∈ s.DynSlice,
        (∃ new, T.Dependences M A initial d new ∧ ∀ e ∈ new, ∃ n ∈ s.DynSlice, T.NormalForm M A initial e n) ∧
        ∀ DBB, M.dynamicBlock d = some DBB → DBB.BB = (A.graph (T.getParent DBB.BB)).entry ∨
          T.ControlDone M A initial (fun t => ∃ n ∈ s.DynSlice, T.NormalForm M A initial t n) DBB) := by
  have hinv := h.sliceInv
  refine ⟨hinv.worklist.nodup, fun d hd => ?_, fun hempty => ?_⟩
  · obtain ⟨x, hx, hnorm⟩ := hinv.worklist.sound d hd
    have hlt := hx.invariant (C := fun x => x.index < T.trace.length) hinitial (fun _ _ hx hn => NormalForm.lt hn hx)
      fun _ _ hn hnew => hnew.lt hn
    exact ⟨hnorm.lt hlt, x, hx, hnorm⟩
  · have hhandled : ∀ e, Worklists.Handled (T.NormalForm M A initial) s.toState e →
        ∃ n ∈ s.DynSlice, T.NormalForm M A initial e n := by
      rintro e (hwork | ⟨n, hnorm, hn⟩)
      · change e ∈ s.Worklist at hwork
        rw [hempty] at hwork
        cases hwork
      · exact ⟨n, hn, hnorm⟩
    refine ⟨hhandled _ hinv.worklist.handled, fun d hd => ⟨?_, fun DBB hDBB => ?_⟩⟩
    · obtain ⟨new, hnew, hall⟩ := hinv.worklist.closed d hd
      exact ⟨new, hnew, fun e he => hhandled e (hall e he)⟩
    · exact (hinv.looked d hd DBB hDBB).imp_right fun hmem => (hinv.done DBB hmem).mono hhandled

end LoadedTrace

end Witcher.TraceScan

namespace Witcher.Instrumentation

open TraceScan LoadedTrace Loops

/-- Block 3 comes before block 2 here, so that the flag that is written last is the one of block 2. -/
def recursiveAnalyses : ForcerAnalyses UInt32 Unit :=
  ⟨fun _ => { recursiveGraph with others := [3, 2] }, treePasses recursiveGraph recursiveTree UInt32.toNat⟩

theorem findExecForcers_recursive : ∃ caches,
    findExecForcers (recursiveAnalyses.graph (recursiveTrace.getParent 2)) recursiveAnalyses.passes 2 2 .empty ∅ =
      some (false, caches, {1}) := by
  have hmap : (findExecForcers (recursiveAnalyses.graph (recursiveTrace.getParent 2)) recursiveAnalyses.passes 2 2 .empty ∅).map
      (fun r => (r.1, r.2.2)) = some (false, {1}) := rfl
  obtain ⟨⟨found, caches, nums⟩, hfind, heq⟩ := Option.map_eq_some_iff.mp hmap
  cases heq
  exact ⟨caches, hfind⟩

/-- The branch of block 1 forced the execution of block 2 in the middle activation. -/
theorem controlSources_recursive : ∃ caches,
    recursiveTrace.controlSources recursiveModule recursiveAnalyses ⟨[], [⟨3, 11⟩], [], .empty, ⟨[], []⟩⟩ ⟨3, 11⟩ =
      .ok ([⟨11, 4⟩], ⟨[], [⟨3, 11⟩], [⟨2, 11⟩], caches, ⟨[], []⟩⟩) := by
  obtain ⟨caches, hfind⟩ := findExecForcers_recursive
  refine ⟨caches, ?_⟩
  have hblock : recursiveModule.dynamicBlock (⟨3, 11⟩ : DynValue UInt32) = some ⟨2, 11⟩ := rfl
  have hsort : (({1} : Finset Nat).sort).map UInt32.ofNat = [1] := by
    rw [Finset.sort_singleton]
    rfl
  have hforcer : recursiveTrace.getExecForcer (⟨[], []⟩ : BuggyValues UInt32 UInt32) ⟨2, 11⟩ [1] =
      .ok (some ⟨1, 4⟩, ⟨[], []⟩) := rfl
  rw [controlSources, hblock]
  simp only
  rw [if_neg (by decide), hfind]
  simp only
  rw [hsort, hforcer]
  rfl

theorem sliceRun_recursive : ∃ s : SliceState UInt32 UInt32,
    recursiveTrace.SliceRun recursiveModule recursiveAnalyses ⟨3, 11⟩ s ∧ s.Worklist = [] ∧
      s.DynSlice = [⟨11, 4⟩, ⟨3, 11⟩] := by
  obtain ⟨caches, hcontrol⟩ := controlSources_recursive
  have hnormal : recursiveTrace.normalize recursiveModule.blockOf (⟨[], []⟩ : BuggyValues UInt32 UInt32) ⟨3, 11⟩ =
      .ok (some ⟨3, 11⟩, ⟨[], []⟩) := rfl
  have hfirst : recursiveTrace.sliceStep recursiveModule recursiveAnalyses (.init ⟨3, 11⟩) =
      .ok ⟨[⟨11, 4⟩], [⟨3, 11⟩], [⟨2, 11⟩], caches, ⟨[], []⟩⟩ := by
    rw [SliceState.init, sliceStep]
    simp only
    rw [hnormal, ok_bind]
    simp only [Option.getD_some]
    rw [if_neg (by decide), hcontrol]
    rfl
  exact ⟨⟨[], [⟨11, 4⟩, ⟨3, 11⟩], [⟨2, 11⟩], caches, ⟨[], []⟩⟩,
    .step (.step .init (List.cons_ne_nil _ _) hfirst) (List.cons_ne_nil _ _) rfl, rfl, rfl⟩

/-- The slice of a store of the middle activation has the branch that led to it. -/
theorem slice_closed_recursive : ∃ s : SliceState UInt32 UInt32, s.DynSlice = [⟨11, 4⟩, ⟨3, 11⟩] ∧
    (∀ d ∈ s.DynSlice, d.index < recursiveTrace.trace.length) ∧
      (∃ n ∈ s.DynSlice, recursiveTrace.NormalForm recursiveModule recursiveAnalyses ⟨3, 11⟩ ⟨3, 11⟩ n) ∧
        recursiveTrace.ControlDone recursiveModule recursiveAnalyses ⟨3, 11⟩
          (fun t => ∃ n ∈ s.DynSlice, recursiveTrace.NormalForm recursiveModule recursiveAnalyses ⟨3, 11⟩ t n) ⟨2, 11⟩ := by
  obtain ⟨s, hrun, hempty, hslice⟩ := sliceRun_recursive
  have h := SliceRun.slice_closed hrun (by decide)
  refine ⟨s, hslice, fun d hd => (h.2.1 d hd).1, (h.2.2 hempty).1, ?_⟩
  exact (((h.2.2 hempty).2 ⟨3, 11⟩ (hslice ▸ List.mem_cons_of_mem _ (List.mem_singleton_self _))).2 ⟨2, 11⟩ rfl).resolve_left
    (show ¬(2 : UInt32) = 1 by decide)

end Witcher.Instrumentation
