import Mathlib.Algebra.Group.Nat.Defs
import Mathlib.Data.List.Induction
import Witcher.TruncatedTraces

/-! The objects behind the vertices of the persistent dependence graph (`ProgramDependenceGraph.cpp`,
`Giri/TraceFile.h`). Every execution that is looked up is a new object with a table of its own from vertices to trace
infos; the map of the graph has copies of these objects as its keys, and a vertex points to the object of the last
call with its value. A value is expected to have a load and a store at most. -/

namespace Witcher.VertexObjects

variable {ν : Type} [DecidableEq ν]

/-! ### Objects -/

/-- The keys of the table are ints, so a vertex is known by its low 32 bits. -/
structure Object (ν : Type) where
  val : DynValue ν
  vertexToTraceinfoMap : Dict (BitVec 32) TraceInfo

omit [DecidableEq ν] in
/-- `std::unordered_map::insert` keeps the entry that is there. -/
def Object.putTraceInfoByVertex (o : Object ν) (v : Nat) (traceInfo : TraceInfo) : Object ν :=
  if (o.vertexToTraceinfoMap.get? (.ofNat 32 v)).isSome then o
  else { o with vertexToTraceinfoMap := o.vertexToTraceinfoMap.set (.ofNat 32 v) traceInfo }

def Object.getTraceInfoByVertex (o : Object ν) (v : Nat) : Option TraceInfo := o.vertexToTraceinfoMap.get? (.ofNat 32 v)

/-- The graph with the heap its vertices point into. -/
structure ObjectGraph (ν : Type) [DecidableEq ν] where
  objects : List (Object ν)
  graph : List Nat
  valToVtxMap : Dict (DynValue ν) (Object ν × List Nat)

def ObjectGraph.empty : ObjectGraph ν := ⟨[], [], Dict.empty⟩

/-- A set of vertices is an ascending list. -/
def insertVertex (v : Nat) : List Nat → List Nat
  | [] => [v]
  | w :: ws => if v < w then v :: w :: ws else if v = w then w :: ws else w :: insertVertex v ws

/-- The first vertex of the value of `o`, the object at `val`. -/
def ObjectGraph.addVertex (g : ObjectGraph ν) (val : Nat) (o : Object ν) : ObjectGraph ν where
  objects := g.objects.set val o
  graph := g.graph ++ [val]
  valToVtxMap := g.valToVtxMap.set o.val (o, [g.graph.length])

/-- A further vertex; the one that is there is pointed to the new object. -/
def ObjectGraph.mergeVertex (g : ObjectGraph ν) (val : Nat) (o : Object ν) (vInplace : Nat) : ObjectGraph ν where
  objects := g.objects.set val o
  graph := (g.graph ++ [val]).set vInplace val
  valToVtxMap := (g.valToVtxMap.erase o.val).set o.val (o, insertVertex g.graph.length [vInplace])

/-- `createVertex` of the object at `val`; `none` if the assertion fails, or a trace info that is not there is
read. -/
def ObjectGraph.createVertex (g : ObjectGraph ν) (val : Nat) (traceInfo : TraceInfo) : Option (ObjectGraph ν) := do
  let o := (← g.objects[val]?).putTraceInfoByVertex g.graph.length traceInfo
  match g.valToVtxMap.get? o.val with
  | none => some (g.addVertex val o)
  | some (key, [vInplace]) =>
      (key.getTraceInfoByVertex vInplace).map fun traceInfo =>
        g.mergeVertex val (o.putTraceInfoByVertex vInplace traceInfo) vInplace
  | some (_, _) => none

def ObjectGraph.getVertices (g : ObjectGraph ν) (val : DynValue ν) : Option (List Nat) := (g.valToVtxMap.get? val).map Prod.snd

/-- A call with the execution that was looked up for it, a new object. -/
def ObjectGraph.call (g : ObjectGraph ν) (c : DynValue ν × TraceInfo) : Option (ObjectGraph ν) :=
  ObjectGraph.createVertex
    { g with objects := g.objects ++ [{ val := c.1, vertexToTraceinfoMap := Dict.empty }] } g.objects.length c.2

/-- The calls in order; the `k`-th one creates vertex `k`. -/
def createVertices (calls : List (DynValue ν × TraceInfo)) : Option (ObjectGraph ν) := calls.foldlM ObjectGraph.call .empty

/-! ### The calls of a value -/

/-- The numbers of the calls with the value, which are its vertices. -/
def callsOf (calls : List (DynValue ν × TraceInfo)) (d : DynValue ν) : List Nat :=
  (List.range calls.length).filter fun k => calls[k]?.map Prod.fst = some d

section Calls

variable {calls : List (DynValue ν × TraceInfo)} {c : DynValue ν × TraceInfo} {d : DynValue ν} {k : Nat}

theorem mem_callsOf : k ∈ callsOf calls d ↔ ∃ traceInfo, calls[k]? = some (d, traceInfo) := by
  rw [callsOf, List.mem_filter, List.mem_range, decide_eq_true_eq]
  constructor
  · rintro ⟨-, hk⟩
    obtain ⟨⟨d', traceInfo⟩, hget, rfl⟩ := Option.map_eq_some_iff.mp hk
    exact ⟨traceInfo, hget⟩
  · rintro ⟨traceInfo, hget⟩
    exact ⟨(List.getElem?_eq_some_iff.mp hget).choose, by rw [hget, Option.map_some]⟩

theorem lt_of_mem_callsOf (h : k ∈ callsOf calls d) : k < calls.length := by
  obtain ⟨traceInfo, hget⟩ := mem_callsOf.mp h
  exact (List.getElem?_eq_some_iff.mp hget).choose

theorem callsOf_concat : callsOf (calls ++ [c]) d = callsOf calls d ++ if c.1 = d then [calls.length] else [] := by
  have hold : (List.range calls.length).filter (fun k => (calls ++ [c])[k]?.map Prod.fst = some d) = callsOf calls d := by
    refine List.filter_congr fun k hk => ?_
    rw [List.getElem?_append_left (List.mem_range.mp hk)]
  rw [callsOf, List.length_append, List.length_singleton, List.range_succ, List.filter_append, hold, List.filter_singleton,
    List.getElem?_concat_length, Option.map_some, Bool.cond_decide]
  simp only [Option.some_inj]

theorem callsOf_ascending (calls : List (DynValue ν × TraceInfo)) (d : DynValue ν) : (callsOf calls d).Pairwise (· < ·) :=
  List.pairwise_lt_range.sublist List.filter_sublist

theorem callsOf_cases (h : (callsOf calls d).length ≤ 2) :
    callsOf calls d = [] ∨ (∃ i, callsOf calls d = [i]) ∨ ∃ i j, i < j ∧ callsOf calls d = [i, j] := by
  have hasc := callsOf_ascending calls d
  generalize callsOf calls d = l at h hasc
  cases l with
  | nil => exact .inl rfl
  | cons i rest =>
      cases rest with
      | nil => exact .inr (.inl ⟨i, rfl⟩)
      | cons j rest =>
          have hnil : rest = [] := by
            rw [List.length_cons, List.length_cons] at h
            exact List.length_eq_zero_iff.mp (by omega)
          subst hnil
          exact .inr (.inr ⟨i, j, by simpa using hasc, rfl⟩)

theorem callsOf_eq_pair (h : (callsOf calls d).length ≤ 2) {i j : Nat} (hij : i < j) (hi : i ∈ callsOf calls d)
    (hj : j ∈ callsOf calls d) : callsOf calls d = [i, j] := by
  rcases callsOf_cases h with hlist | ⟨a, hlist⟩ | ⟨a, b, hab, hlist⟩
  · rw [hlist] at hi
    cases hi
  · rw [hlist, List.mem_singleton] at hi hj
    omega
  · rw [hlist] at hi hj
    simp only [List.mem_cons, List.not_mem_nil, or_false] at hi hj
    have hai : a = i := by omega
    have hbj : b = j := by omega
    rw [hlist, hai, hbj]

end Calls

/-! ### What a run leaves -/

/-- The object of the only call with a value. -/
def onlyObject (d : DynValue ν) (i : Nat) (traceInfo : TraceInfo) : Object ν :=
  (⟨d, Dict.empty⟩ : Object ν).putTraceInfoByVertex i traceInfo

/-- The object of the second call with a value, `j`, after the first one, `i`. -/
def secondObject (d : DynValue ν) (i : Nat) (traceInfo : TraceInfo) (j : Nat) (traceInfo' : TraceInfo) : Object ν :=
  (onlyObject d j traceInfo').putTraceInfoByVertex i traceInfo

omit [DecidableEq ν] in
theorem val_putTraceInfoByVertex (o : Object ν) (v : Nat) (traceInfo : TraceInfo) :
    (o.putTraceInfoByVertex v traceInfo).val = o.val := by
  unfold Object.putTraceInfoByVertex
  split_ifs <;> rfl

omit [DecidableEq ν] in
theorem getTraceInfoByVertex_put (o : Object ν) (v w : Nat) (traceInfo : TraceInfo) :
    (o.putTraceInfoByVertex v traceInfo).getTraceInfoByVertex w =
      if BitVec.ofNat 32 w = BitVec.ofNat 32 v then (o.getTraceInfoByVertex v).or (some traceInfo)
      else o.getTraceInfoByVertex w := by
  simp only [Object.putTraceInfoByVertex, Object.getTraceInfoByVertex]
  cases htable : o.vertexToTraceinfoMap.get? (BitVec.ofNat 32 v) with
  | none =>
      simp only [Option.isSome_none, Bool.false_eq_true, if_false, Dict.get?_set, Option.none_or]
  | some old =>
      simp only [Option.isSome_some, if_true, Option.some_or]
      split_ifs with heq
      · rw [heq, htable]
      · rfl

omit [DecidableEq ν] in
theorem getTraceInfoByVertex_only (d : DynValue ν) (i : Nat) (traceInfo : TraceInfo) :
    (onlyObject d i traceInfo).getTraceInfoByVertex i = some traceInfo := by
  rw [onlyObject, getTraceInfoByVertex_put, if_pos rfl]
  rfl

omit [DecidableEq ν] in
/-- Vertices of the same low 32 bits share an entry, and the newer trace info is the one that is kept. -/
theorem getTraceInfoByVertex_second (d : DynValue ν) (i : Nat) (traceInfo : TraceInfo) (j : Nat) (traceInfo' : TraceInfo) :
    (secondObject d i traceInfo j traceInfo').getTraceInfoByVertex j = some traceInfo' ∧
      (secondObject d i traceInfo j traceInfo').getTraceInfoByVertex i =
        some (if BitVec.ofNat 32 i = BitVec.ofNat 32 j then traceInfo' else traceInfo) := by
  have hempty : (⟨d, Dict.empty⟩ : Object ν).getTraceInfoByVertex i = none := rfl
  have hempty' : (⟨d, Dict.empty⟩ : Object ν).getTraceInfoByVertex j = none := rfl
  simp only [secondObject, onlyObject, getTraceInfoByVertex_put, hempty, hempty', if_true, Option.none_or]
  split_ifs with hij hji hji
  · exact ⟨rfl, rfl⟩
  · exact absurd hij.symm hji
  · exact absurd hji.symm hij
  · exact ⟨rfl, rfl⟩

/-- The state after calls of which at most two have the same value. -/
structure Stands (calls : List (DynValue ν × TraceInfo)) (g : ObjectGraph ν) : Prop where
  objectCount : g.objects.length = calls.length
  vertexCount : g.graph.length = calls.length
  few : ∀ d, (callsOf calls d).length ≤ 2
  unseen : ∀ d, callsOf calls d = [] → g.valToVtxMap.get? d = none
  only : ∀ d i traceInfo, callsOf calls d = [i] → calls[i]? = some (d, traceInfo) →
    g.valToVtxMap.get? d = some (onlyObject d i traceInfo, [i]) ∧ g.graph[i]? = some i ∧
      g.objects[i]? = some (onlyObject d i traceInfo)
  second : ∀ d i j traceInfo traceInfo', callsOf calls d = [i, j] → calls[i]? = some (d, traceInfo) →
    calls[j]? = some (d, traceInfo') →
    g.valToVtxMap.get? d = some (secondObject d i traceInfo j traceInfo', [i, j]) ∧ g.graph[i]? = some j ∧
      g.graph[j]? = some j ∧
      g.objects[j]? = some (secondObject d i traceInfo j traceInfo')

theorem stands_empty : Stands [] (.empty : ObjectGraph ν) where
  objectCount := rfl
  vertexCount := rfl
  few _ := Nat.zero_le 2
  unseen _ _ := rfl
  only _ _ _ h := by cases h
  second _ _ _ _ _ h := by cases h

section Step

variable {calls : List (DynValue ν × TraceInfo)} {g : ObjectGraph ν} {d : DynValue ν} {traceInfo : TraceInfo}

/-- The graph with the new object of a call. -/
def ObjectGraph.allocate (g : ObjectGraph ν) (d : DynValue ν) : ObjectGraph ν :=
  { g with objects := g.objects ++ [{ val := d, vertexToTraceinfoMap := Dict.empty }] }

theorem Stands.call_eq (h : Stands calls g) (d : DynValue ν) (traceInfo : TraceInfo) : g.call (d, traceInfo) =
    (g.allocate d).createVertex calls.length traceInfo ∧ (g.allocate d).objects[calls.length]? = some ⟨d, Dict.empty⟩ := by
  rw [ObjectGraph.call, h.objectCount]
  refine ⟨rfl, ?_⟩
  rw [ObjectGraph.allocate, ← h.objectCount, List.getElem?_concat_length]

theorem Stands.call_first (h : Stands calls g) (hcalls : callsOf calls d = []) :
    g.call (d, traceInfo) = some ((g.allocate d).addVertex calls.length (onlyObject d calls.length traceInfo)) := by
  obtain ⟨hcall, hobject⟩ := h.call_eq d traceInfo
  have hmap : (g.allocate d).valToVtxMap.get? d = none := h.unseen d hcalls
  have hvertices : (g.allocate d).graph.length = calls.length := h.vertexCount
  rw [hcall, ObjectGraph.createVertex, hobject, hvertices]
  simp only [Option.bind_eq_bind, Option.bind_some, val_putTraceInfoByVertex, hmap]
  rfl

theorem Stands.call_second (h : Stands calls g) {i : Nat} {old : TraceInfo} (hcalls : callsOf calls d = [i])
    (hold : calls[i]? = some (d, old)) :
    g.call (d, traceInfo) = some ((g.allocate d).mergeVertex calls.length (secondObject d i old calls.length traceInfo) i) := by
  obtain ⟨hcall, hobject⟩ := h.call_eq d traceInfo
  have hmap : (g.allocate d).valToVtxMap.get? d = some (onlyObject d i old, [i]) := (h.only d i old hcalls hold).1
  have hvertices : (g.allocate d).graph.length = calls.length := h.vertexCount
  rw [hcall, ObjectGraph.createVertex, hobject, hvertices]
  simp only [Option.bind_eq_bind, Option.bind_some, val_putTraceInfoByVertex, hmap, getTraceInfoByVertex_only, Option.map_some]
  rfl

theorem Stands.call_third (h : Stands calls g) {i j : Nat} (hcalls : callsOf calls d = [i, j]) :
    g.call (d, traceInfo) = none := by
  obtain ⟨hcall, hobject⟩ := h.call_eq d traceInfo
  obtain ⟨old, hold⟩ := mem_callsOf.mp (show i ∈ callsOf calls d by rw [hcalls]; simp)
  obtain ⟨old', hold'⟩ := mem_callsOf.mp (show j ∈ callsOf calls d by rw [hcalls]; simp)
  have hmap : (g.allocate d).valToVtxMap.get? d = some (secondObject d i old j old', [i, j]) :=
    (h.second d i j old old' hcalls hold hold').1
  rw [hcall, ObjectGraph.createVertex, hobject]
  simp only [Option.bind_eq_bind, Option.bind_some, val_putTraceInfoByVertex, hmap]

/-- What a call with value `d` changes: `old` are the vertices that the value had. -/
structure Changes (g g' : ObjectGraph ν) (n : Nat) (o : Object ν) (d : DynValue ν) (old : List Nat) : Prop where
  objectCount : g'.objects.length = n + 1
  vertexCount : g'.graph.length = n + 1
  objects : ∀ k < n, g'.objects[k]? = g.objects[k]?
  newObject : g'.objects[n]? = some o
  graph : ∀ k < n, k ∉ old → g'.graph[k]? = g.graph[k]?
  pointed : ∀ k ∈ old ++ [n], g'.graph[k]? = some n
  map : ∀ d', g'.valToVtxMap.get? d' = if d' = d then some (o, old ++ [n]) else g.valToVtxMap.get? d'

omit [DecidableEq ν] in
theorem set_allocated {l : List (Object ν)} {x o : Object ν} {n : Nat} (hn : l.length = n) :
    ((l ++ [x]).set n o).length = n + 1 ∧ ((l ++ [x]).set n o)[n]? = some o ∧ ∀ k < n, ((l ++ [x]).set n o)[k]? = l[k]? := by
  refine ⟨by simp [hn], ?_, fun k hk => ?_⟩
  · rw [List.getElem?_set_self (by simp [hn])]
  · rw [List.getElem?_set_ne (by omega), List.getElem?_append_left (by omega)]

theorem Stands.addVertex_changes (h : Stands calls g) (o : Object ν) (ho : o.val = d) :
    Changes g ((g.allocate d).addVertex calls.length o) calls.length o d [] := by
  obtain ⟨hlength, hself, hold⟩ := set_allocated (x := ⟨d, Dict.empty⟩) (o := o) h.objectCount
  have hvertices := h.vertexCount
  refine ⟨hlength, ?_, hold, hself, ?_, ?_, ?_⟩
  · simp [ObjectGraph.addVertex, ObjectGraph.allocate, hvertices]
  · intro k hk _
    simp only [ObjectGraph.addVertex, ObjectGraph.allocate]
    rw [List.getElem?_append_left (by omega)]
  · intro k hk
    rw [List.nil_append, List.mem_singleton] at hk
    simp only [ObjectGraph.addVertex, ObjectGraph.allocate]
    rw [hk, ← hvertices, List.getElem?_concat_length]
  · intro d'
    simp only [ObjectGraph.addVertex, ObjectGraph.allocate, Dict.get?_set, ho, hvertices, List.nil_append]

theorem Stands.mergeVertex_changes (h : Stands calls g) (o : Object ν) (ho : o.val = d) {i : Nat} (hi : i < calls.length) :
    Changes g ((g.allocate d).mergeVertex calls.length o i) calls.length o d [i] := by
  obtain ⟨hlength, hself, hold⟩ := set_allocated (x := ⟨d, Dict.empty⟩) (o := o) h.objectCount
  have hvertices := h.vertexCount
  refine ⟨hlength, ?_, hold, hself, ?_, ?_, ?_⟩
  · simp [ObjectGraph.mergeVertex, ObjectGraph.allocate, hvertices]
  · intro k hk hne
    rw [List.mem_singleton] at hne
    simp only [ObjectGraph.mergeVertex, ObjectGraph.allocate]
    rw [List.getElem?_set_ne (Ne.symm hne), List.getElem?_append_left (by omega)]
  · intro k hk
    simp only [ObjectGraph.mergeVertex, ObjectGraph.allocate]
    by_cases hki : k = i
    · rw [hki, List.getElem?_set_self (by simp; omega)]
    · rw [List.singleton_append, List.mem_cons, List.mem_singleton] at hk
      rw [List.getElem?_set_ne (Ne.symm hki), hk.resolve_left hki, ← hvertices, List.getElem?_concat_length]
  · intro d'
    have hset : insertVertex calls.length [i] = [i, calls.length] := by
      rw [insertVertex, if_neg (by omega), if_neg (by omega), insertVertex]
    simp only [ObjectGraph.mergeVertex, ObjectGraph.allocate, Dict.get?_set, Dict.get?_erase, ho, hvertices, hset,
      List.singleton_append]
    split_ifs <;> rfl

omit [DecidableEq ν] in
theorem getElem?_of_concat {n : Nat} {c c' : DynValue ν × TraceInfo} (hn : n < calls.length)
    (h : (calls ++ [c])[n]? = some c') :
    calls[n]? = some c' := by
  rwa [List.getElem?_append_left hn] at h

theorem callsOf_concat_self (traceInfo : TraceInfo) :
    callsOf (calls ++ [(d, traceInfo)]) d = callsOf calls d ++ [calls.length] := by
  rw [callsOf_concat, if_pos rfl]

theorem callsOf_concat_other {d' : DynValue ν} (h : d ≠ d') : callsOf (calls ++ [(d, traceInfo)]) d' = callsOf calls d' := by
  rw [callsOf_concat, if_neg h, List.append_nil]

section Changed

variable {g' : ObjectGraph ν} {o : Object ν}

/-- The vertices of another value are not touched. -/
theorem Changes.frame (hchanges : Changes g g' calls.length o d (callsOf calls d)) {d' : DynValue ν} (hne : d ≠ d') {k : Nat}
    (hk : k ∈ callsOf calls d') : k < calls.length ∧ g'.graph[k]? = g.graph[k]? ∧ g'.objects[k]? = g.objects[k]? := by
  have hlt := lt_of_mem_callsOf hk
  refine ⟨hlt, hchanges.graph k hlt fun hmem => ?_, hchanges.objects k hlt⟩
  obtain ⟨info, hget⟩ := mem_callsOf.mp hk
  obtain ⟨info', hget'⟩ := mem_callsOf.mp hmem
  rw [hget, Option.some_inj, Prod.mk.injEq] at hget'
  exact hne hget'.1.symm

theorem Changes.map_other {n : Nat} {old : List Nat} (hchanges : Changes g g' n o d old) {d' : DynValue ν} (hne : d ≠ d') :
    g'.valToVtxMap.get? d' = g.valToVtxMap.get? d' := by
  rw [hchanges.map, if_neg (Ne.symm hne)]

/-- After the first call with a value. -/
theorem Changes.first {i : Nat} {info : TraceInfo} (hchanges : Changes g g' calls.length o d (callsOf calls d))
    (honly : callsOf calls d = [] → o = onlyObject d calls.length traceInfo)
    (hone : callsOf (calls ++ [(d, traceInfo)]) d = [i]) (hget : (calls ++ [(d, traceInfo)])[i]? = some (d, info)) :
    g'.valToVtxMap.get? d = some (onlyObject d i info, [i]) ∧ g'.graph[i]? = some i ∧
      g'.objects[i]? = some (onlyObject d i info) := by
  rw [callsOf_concat_self] at hone
  obtain ⟨hempty, hi⟩ := List.append_inj' (show callsOf calls d ++ [calls.length] = [] ++ [i] from hone) rfl
  rw [List.singleton_inj] at hi
  subst hi
  rw [List.getElem?_concat_length, Option.some_inj, Prod.mk.injEq] at hget
  obtain ⟨-, rfl⟩ := hget
  have hpoint := hchanges.pointed calls.length (by simp)
  have hentry := hchanges.map d
  rw [if_pos rfl, hempty, List.nil_append, honly hempty] at hentry
  have hobject := hchanges.newObject
  rw [honly hempty] at hobject
  exact ⟨hentry, hpoint, hobject⟩

/-- After the second call with a value. -/
theorem Changes.second {i j : Nat} {info info' : TraceInfo} (hchanges : Changes g g' calls.length o d (callsOf calls d))
    (hsecond : ∀ i old, callsOf calls d = [i] → calls[i]? = some (d, old) → o = secondObject d i old calls.length traceInfo)
    (htwo : callsOf (calls ++ [(d, traceInfo)]) d = [i, j]) (hget : (calls ++ [(d, traceInfo)])[i]? = some (d, info))
    (hget' : (calls ++ [(d, traceInfo)])[j]? = some (d, info')) :
    g'.valToVtxMap.get? d = some (secondObject d i info j info', [i, j]) ∧ g'.graph[i]? = some j ∧ g'.graph[j]? = some j ∧
      g'.objects[j]? = some (secondObject d i info j info') := by
  rw [callsOf_concat_self] at htwo
  obtain ⟨hone, hj⟩ := List.append_inj' (show callsOf calls d ++ [calls.length] = [i] ++ [j] from htwo) rfl
  rw [List.singleton_inj] at hj
  subst hj
  rw [List.getElem?_concat_length, Option.some_inj, Prod.mk.injEq] at hget'
  obtain ⟨-, rfl⟩ := hget'
  have hi : i < calls.length := lt_of_mem_callsOf (d := d) (by rw [hone]; simp)
  have hobject := hchanges.newObject
  have hentry := hchanges.map d
  rw [if_pos rfl] at hentry
  rw [hsecond i info hone (getElem?_of_concat hi hget)] at hobject hentry
  rw [hone] at hentry
  have hpoint := hchanges.pointed
  rw [hone] at hpoint
  exact ⟨hentry, hpoint i (by simp), hpoint calls.length (by simp), hobject⟩

/-- A first or second call with a value. -/
theorem Stands.concat (h : Stands calls g) (hchanges : Changes g g' calls.length o d (callsOf calls d))
    (hfew : (callsOf calls d).length ≤ 1) (honly : callsOf calls d = [] → o = onlyObject d calls.length traceInfo)
    (hsecond : ∀ i old, callsOf calls d = [i] → calls[i]? = some (d, old) → o = secondObject d i old calls.length traceInfo) :
    Stands (calls ++ [(d, traceInfo)]) g' where
  objectCount := by rw [hchanges.objectCount, List.length_append, List.length_singleton]
  vertexCount := by rw [hchanges.vertexCount, List.length_append, List.length_singleton]
  few d' := by
    by_cases hd : d = d'
    · rw [← hd, callsOf_concat_self, List.length_append, List.length_singleton]
      omega
    · rw [callsOf_concat_other hd]
      exact h.few d'
  unseen d' hnone := by
    by_cases hd : d = d'
    · rw [← hd, callsOf_concat_self] at hnone
      simp at hnone
    · rw [callsOf_concat_other hd] at hnone
      rw [hchanges.map_other hd]
      exact h.unseen d' hnone
  only d' i info hone hget := by
    by_cases hd : d = d'
    · subst hd
      exact hchanges.first honly hone hget
    · rw [callsOf_concat_other hd] at hone
      obtain ⟨hlt, hgraph, hobjects⟩ := hchanges.frame hd (show i ∈ callsOf calls d' by rw [hone]; simp)
      rw [hchanges.map_other hd, hgraph, hobjects]
      exact h.only d' i info hone (getElem?_of_concat hlt hget)
  second d' i j info info' htwo hget hget' := by
    by_cases hd : d = d'
    · subst hd
      exact hchanges.second hsecond htwo hget hget'
    · rw [callsOf_concat_other hd] at htwo
      obtain ⟨hlt, hgraph, -⟩ := hchanges.frame hd (show i ∈ callsOf calls d' by rw [htwo]; simp)
      obtain ⟨hlt', hgraph', hobjects'⟩ := hchanges.frame hd (show j ∈ callsOf calls d' by rw [htwo]; simp)
      rw [hchanges.map_other hd, hgraph, hgraph', hobjects']
      exact h.second d' i j info info' htwo (getElem?_of_concat hlt hget) (getElem?_of_concat hlt' hget')

end Changed

theorem Stands.call (h : Stands calls g) (traceInfo : TraceInfo) (hfew : (callsOf calls d).length ≤ 1) :
    ∃ g', g.call (d, traceInfo) = some g' ∧ Stands (calls ++ [(d, traceInfo)]) g' := by
  cases hcalls : callsOf calls d with
  | nil =>
      refine ⟨_, h.call_first hcalls, ?_⟩
      have hchanges := h.addVertex_changes (onlyObject d calls.length traceInfo) (d := d) (val_putTraceInfoByVertex _ _ _)
      rw [← hcalls] at hchanges
      exact h.concat hchanges hfew (fun _ => rfl) fun i old hone => by rw [hcalls] at hone; cases hone
  | cons i rest =>
      have hrest : rest = [] := by
        rw [hcalls, List.length_cons] at hfew
        exact List.length_eq_zero_iff.mp (by omega)
      subst hrest
      obtain ⟨old, hold⟩ := mem_callsOf.mp (show i ∈ callsOf calls d by rw [hcalls]; simp)
      have hval : (secondObject d i old calls.length traceInfo).val = d := by
        rw [secondObject, val_putTraceInfoByVertex, onlyObject, val_putTraceInfoByVertex]
      have hchanges := h.mergeVertex_changes _ hval (lt_of_mem_callsOf (mem_callsOf.mpr ⟨old, hold⟩))
      rw [← hcalls] at hchanges
      refine ⟨_, h.call_second hcalls hold, h.concat hchanges hfew (fun hnone => by rw [hcalls] at hnone; cases hnone) ?_⟩
      intro i' old' hone hold'
      rw [hcalls, List.cons.injEq] at hone
      obtain ⟨rfl, -⟩ := hone
      rw [hold, Option.some_inj, Prod.mk.injEq] at hold'
      rw [hold'.2]

end Step

/-! ### A run -/

section Run

variable {calls : List (DynValue ν × TraceInfo)}

theorem createVertices_concat (calls : List (DynValue ν × TraceInfo)) (c : DynValue ν × TraceInfo) :
    createVertices (calls ++ [c]) = (createVertices calls).bind fun g => g.call c := by
  rw [createVertices, List.foldlM_append]
  simp only [List.foldlM_cons, List.foldlM_nil, Option.pure_def, Option.bind_eq_bind, Option.bind_fun_some]
  rfl

theorem createVertices_stands (hfew : ∀ d, (callsOf calls d).length ≤ 2) :
    ∃ g, createVertices calls = some g ∧ Stands calls g := by
  induction calls using List.reverseRecOn with
  | nil => exact ⟨.empty, rfl, stands_empty⟩
  | append_singleton calls c ih =>
      obtain ⟨d, traceInfo⟩ := c
      have hle : ∀ d', (callsOf calls d').length ≤ 2 := by
        intro d'
        have hd := hfew d'
        rw [callsOf_concat, List.length_append] at hd
        omega
      have hone : (callsOf calls d).length ≤ 1 := by
        have hd := hfew d
        rw [callsOf_concat, if_pos rfl, List.length_append, List.length_singleton] at hd
        omega
      obtain ⟨g, hrun, hstands⟩ := ih hle
      obtain ⟨g', hcall, hstands'⟩ := hstands.call traceInfo hone
      exact ⟨g', by rw [createVertices_concat, hrun, Option.bind_some, hcall], hstands'⟩

theorem stands_of_createVertices {g : ObjectGraph ν} (h : createVertices calls = some g) : Stands calls g := by
  induction calls using List.reverseRecOn generalizing g with
  | nil =>
      cases h
      exact stands_empty
  | append_singleton calls c ih =>
      obtain ⟨d, traceInfo⟩ := c
      rw [createVertices_concat, Option.bind_eq_some_iff] at h
      obtain ⟨g₀, hrun, hcall⟩ := h
      have hstands := ih hrun
      have hone : (callsOf calls d).length ≤ 1 := by
        have hfew := hstands.few d
        by_contra hmore
        obtain ⟨i, j, htwo⟩ := List.length_eq_two.mp (show (callsOf calls d).length = 2 by omega)
        rw [hstands.call_third htwo] at hcall
        cases hcall
      obtain ⟨g', hcall', hstands'⟩ := hstands.call traceInfo hone
      rw [hcall] at hcall'
      cases hcall'
      exact hstands'

theorem length_callsOf (calls : List (DynValue ν × TraceInfo)) (d : DynValue ν) :
    (callsOf calls d).length = (calls.map Prod.fst).count d := by
  induction calls using List.reverseRecOn with
  | nil => rfl
  | append_singleton calls c ih =>
      rw [callsOf_concat, List.length_append, ih, List.map_append, List.count_append, List.map_singleton, List.count_singleton]
      simp only [beq_iff_eq]
      split_ifs <;> rfl

/-- The vertices of a value are its calls. -/
theorem Stands.getVertices_eq {g : ObjectGraph ν} (h : Stands calls g) {d : DynValue ν} (hcalls : callsOf calls d ≠ []) :
    g.getVertices d = some (callsOf calls d) := by
  rw [ObjectGraph.getVertices]
  rcases callsOf_cases (h.few d) with hlist | ⟨i, hlist⟩ | ⟨i, j, -, hlist⟩
  · exact absurd hlist hcalls
  · obtain ⟨info, hi⟩ := mem_callsOf.mp (show i ∈ callsOf calls d by rw [hlist]; simp)
    rw [(h.only d i info hlist hi).1, Option.map_some, hlist]
  · obtain ⟨info, hi⟩ := mem_callsOf.mp (show i ∈ callsOf calls d by rw [hlist]; simp)
    obtain ⟨info', hj⟩ := mem_callsOf.mp (show j ∈ callsOf calls d by rw [hlist]; simp)
    rw [(h.second d i j info info' hlist hi hj).1, Option.map_some, hlist]

/-- Every vertex has the trace info of its call, and is a vertex of that call's value only. -/
structure KeepsInfo (calls : List (DynValue ν × TraceInfo)) (g : ObjectGraph ν) : Prop where
  info : ∀ (k : Nat) (c : DynValue ν × TraceInfo), calls[k]? = some c →
    ∃ (p : Nat) (o : Object ν), g.graph[k]? = some p ∧ g.objects[p]? = some o ∧ o.getTraceInfoByVertex k = some c.2
  vertices : ∀ (k : Nat) (c : DynValue ν × TraceInfo), calls[k]? = some c → ∃ vs, g.getVertices c.1 = some vs ∧ k ∈ vs
  disjoint : ∀ d d' vs vs', d ≠ d' → g.getVertices d = some vs → g.getVertices d' = some vs' → vs.Disjoint vs'

/-- No value is in a third call, and two vertices of one value do not share an entry of the table. -/
structure AtMostTwo (calls : List (DynValue ν × TraceInfo)) : Prop where
  few : ∀ d, (calls.map Prod.fst).count d ≤ 2
  apart : ∀ (i j : Nat) (d : DynValue ν) (info info' : TraceInfo), i < j → calls[i]? = some (d, info) →
    calls[j]? = some (d, info') →
    i % 2 ^ 32 = j % 2 ^ 32 → info = info'

theorem ofNat_eq_iff (i j : Nat) : BitVec.ofNat 32 i = BitVec.ofNat 32 j ↔ i % 2 ^ 32 = j % 2 ^ 32 := by
  rw [← BitVec.toNat_inj, BitVec.toNat_ofNat, BitVec.toNat_ofNat]

/-- The vertices of a value that was called twice. -/
theorem Stands.info_second {g : ObjectGraph ν} (h : Stands calls g) {d : DynValue ν} {i j : Nat} {info info' : TraceInfo}
    (htwo : callsOf calls d = [i, j]) (hi : calls[i]? = some (d, info)) (hj : calls[j]? = some (d, info')) :
    ∃ o, (∀ k ∈ [i, j], ∃ p, g.graph[k]? = some p ∧ g.objects[p]? = some o) ∧ o.getTraceInfoByVertex j = some info' ∧
      o.getTraceInfoByVertex i = some (if i % 2 ^ 32 = j % 2 ^ 32 then info' else info) := by
  obtain ⟨-, hgraph, hgraph', hobject⟩ := h.second d i j info info' htwo hi hj
  obtain ⟨hnew, hold⟩ := getTraceInfoByVertex_second d i info j info'
  simp only [ofNat_eq_iff] at hold
  refine ⟨_, fun k hk => ⟨j, ?_, hobject⟩, hnew, hold⟩
  rcases List.mem_cons.mp hk with rfl | hk
  · exact hgraph
  · rw [List.mem_singleton.mp hk]
    exact hgraph'

theorem Stands.disjoint {g : ObjectGraph ν} (h : Stands calls g) {d d' : DynValue ν} {vs vs' : List Nat} (hne : d ≠ d')
    (hvs : g.getVertices d = some vs) (hvs' : g.getVertices d' = some vs') : vs.Disjoint vs' := by
  have hcalls : ∀ {e : DynValue ν} {ws : List Nat}, g.getVertices e = some ws → callsOf calls e = ws := by
    intro e ws hws
    by_cases hempty : callsOf calls e = []
    · rw [ObjectGraph.getVertices, h.unseen e hempty] at hws
      cases hws
    · rw [h.getVertices_eq hempty, Option.some_inj] at hws
      exact hws
  rw [← hcalls hvs, ← hcalls hvs']
  intro k hk hk'
  obtain ⟨info, hget⟩ := mem_callsOf.mp hk
  obtain ⟨info', hget'⟩ := mem_callsOf.mp hk'
  rw [hget, Option.some_inj, Prod.mk.injEq] at hget'
  exact hne hget'.1

end Run

/-- The calls succeed and every vertex keeps its own trace info exactly if no value is in a third call, and two
vertices of one value that agree in their low 32 bits have the same trace info. -/
theorem keepsInfo_iff (calls : List (DynValue ν × TraceInfo)) :
    (∃ g, createVertices calls = some g ∧ KeepsInfo calls g) ↔ AtMostTwo calls := by
  constructor
  · rintro ⟨g, hrun, hkeeps⟩
    have hstands := stands_of_createVertices hrun
    refine ⟨fun d => by rw [← length_callsOf]; exact hstands.few d, ?_⟩
    intro i j d info info' hij hi hj hmod
    have htwo := callsOf_eq_pair (hstands.few d) hij (mem_callsOf.mpr ⟨info, hi⟩) (mem_callsOf.mpr ⟨info', hj⟩)
    obtain ⟨o, hpoints, -, hold⟩ := hstands.info_second htwo hi hj
    obtain ⟨p, hp, ho⟩ := hpoints i (by simp)
    obtain ⟨p', o', hp', ho', hinfo⟩ := hkeeps.info i (d, info) hi
    rw [hp] at hp'
    cases hp'
    rw [ho] at ho'
    cases ho'
    rw [if_pos hmod, hinfo, Option.some_inj] at hold
    exact hold
  · rintro ⟨hfew, hapart⟩
    have hlengths : ∀ d, (callsOf calls d).length ≤ 2 := fun d => by rw [length_callsOf]; exact hfew d
    obtain ⟨g, hrun, hstands⟩ := createVertices_stands hlengths
    have hvertices : ∀ (k : Nat) (c : DynValue ν × TraceInfo), calls[k]? = some c → k ∈ callsOf calls c.1 :=
      fun k c hk => mem_callsOf.mpr ⟨c.2, hk⟩
    refine ⟨g, hrun, ?_, ?_, fun d d' vs vs' hne hvs hvs' => hstands.disjoint hne hvs hvs'⟩
    · intro k c hk
      have hmem := hvertices k c hk
      rcases callsOf_cases (hstands.few c.1) with hlist | ⟨i, hlist⟩ | ⟨i, j, hij, hlist⟩
      · rw [hlist] at hmem
        cases hmem
      · rw [hlist, List.mem_singleton] at hmem
        subst hmem
        obtain ⟨-, hgraph, hobject⟩ := hstands.only c.1 k c.2 hlist hk
        exact ⟨k, _, hgraph, hobject, getTraceInfoByVertex_only _ _ _⟩
      · obtain ⟨info, hi⟩ := mem_callsOf.mp (show i ∈ callsOf calls c.1 by rw [hlist]; simp)
        obtain ⟨info', hj⟩ := mem_callsOf.mp (show j ∈ callsOf calls c.1 by rw [hlist]; simp)
        obtain ⟨o, hpoints, hnew, hold⟩ := hstands.info_second hlist hi hj
        rw [hlist] at hmem
        obtain ⟨p, hp, ho⟩ := hpoints k hmem
        refine ⟨p, o, hp, ho, ?_⟩
        rcases List.mem_cons.mp hmem with rfl | hmem
        · rw [hi, Option.some_inj] at hk
          rw [← hk, hold]
          split_ifs with hmod
          · rw [hapart k j c.1 info info' hij hi hj hmod]
          · rfl
        · rw [List.mem_singleton.mp hmem] at hk ⊢
          rw [hj, Option.some_inj] at hk
          rw [← hk, hnew]
    · intro k c hk
      have hmem := hvertices k c hk
      exact ⟨_, hstands.getVertices_eq (List.ne_nil_of_mem hmem), hmem⟩

/-- The records of a `strcat` (the destination and the source loaded, and the destination stored), which are records
of one execution. -/
def strcatCalls : List (DynValue String × TraceInfo) :=
  [RecordType.ldType, .ldType, .stType].mapIdx fun k type =>
    (⟨"strcat", 3⟩, ⟨k, ⟨type, 5, 0, 64, 1⟩, "main.c:1"⟩)

/-- A `strcat` makes the assertion on the set fail. -/
theorem keepsInfo_fails_strcat :
    ¬∀ calls : List (DynValue String × TraceInfo), ∃ g, createVertices calls = some g ∧ KeepsInfo calls g := by
  intro hall
  obtain ⟨g, hrun, -⟩ := hall strcatCalls
  have hfew := (stands_of_createVertices hrun).few ⟨"strcat", 3⟩
  exact absurd hfew (by decide)

/-! ### The graph of values -/

section Values

variable {calls : List (DynValue ν × TraceInfo)} {g : ObjectGraph ν} {p : PPDG ν} {d : DynValue ν} {traceInfo : TraceInfo}

/-- The calls on a graph whose vertices have their values and trace infos themselves. -/
def createValueVertices (calls : List (DynValue ν × TraceInfo)) : Option (PPDG ν) :=
  calls.foldlM (fun p c => p.createVertex c.1 c.2) .empty

theorem createValueVertices_concat (calls : List (DynValue ν × TraceInfo)) (c : DynValue ν × TraceInfo) :
    createValueVertices (calls ++ [c]) = (createValueVertices calls).bind fun p => p.createVertex c.1 c.2 := by
  rw [createValueVertices, List.foldlM_append]
  simp only [List.foldlM_cons, List.foldlM_nil, Option.pure_def, Option.bind_eq_bind, Option.bind_fun_some]
  rfl

/-- The vertices are the calls, and the map has those of each value. -/
structure Lists (calls : List (DynValue ν × TraceInfo)) (p : PPDG ν) : Prop where
  vertices : p.vertices = calls
  map : ∀ d, p.valToVtxMap.get? d = if callsOf calls d = [] then none else some (callsOf calls d)

theorem lists_empty : Lists [] (.empty : PPDG ν) := ⟨rfl, fun _ => rfl⟩

theorem Lists.map_concat (h : Lists calls p) (d d' : DynValue ν) (traceInfo : TraceInfo) :
    (if d' = d then some (callsOf calls d ++ [calls.length]) else p.valToVtxMap.get? d') =
      if callsOf (calls ++ [(d, traceInfo)]) d' = [] then none else some (callsOf (calls ++ [(d, traceInfo)]) d') := by
  by_cases hd : d = d'
  · subst hd
    rw [if_pos rfl, callsOf_concat_self, if_neg (List.append_ne_nil_of_right_ne_nil _ (List.cons_ne_nil _ _))]
  · rw [if_neg (Ne.symm hd), callsOf_concat_other hd, h.map]

/-- A first or second call with a value. -/
theorem Lists.createVertex (h : Lists calls p) (traceInfo : TraceInfo) (hfew : (callsOf calls d).length ≤ 1) :
    ∃ p', p.createVertex d traceInfo = some p' ∧ Lists (calls ++ [(d, traceInfo)]) p' := by
  have hmap := h.map d
  have hconcat := fun d' => h.map_concat d d' traceInfo
  rw [PPDG.createVertex]
  split
  · rename_i vInplace hget
    refine ⟨_, rfl, congrArg (· ++ _) h.vertices, fun d' => ?_⟩
    rw [hget] at hmap
    split_ifs at hmap
    rw [← hconcat d', ← Option.some.inj hmap, ← h.vertices]
    simp only [Dict.get?_set, Dict.get?_erase]
    split_ifs <;> rfl
  · rename_i vs hone hget
    rw [hget] at hmap
    split_ifs at hmap with hempty
    obtain ⟨i, hi⟩ := List.length_eq_one_iff.mp (Nat.le_antisymm hfew (List.length_pos_iff.mpr hempty))
    exact (hone i ((Option.some.inj hmap).trans hi)).elim
  · rename_i hget
    refine ⟨_, rfl, congrArg (· ++ _) h.vertices, fun d' => ?_⟩
    rw [hget] at hmap
    split_ifs at hmap with hempty
    rw [← hconcat d', hempty, ← h.vertices]
    simp only [Dict.get?_set]
    rfl

theorem Lists.createVertex_third (h : Lists calls p) {i j : Nat} (hcalls : callsOf calls d = [i, j]) :
    p.createVertex d traceInfo = none := by
  have hmap := h.map d
  rw [hcalls, if_neg (List.cons_ne_nil _ _)] at hmap
  rw [PPDG.createVertex]
  split
  · rename_i vInplace hget
    cases hget.symm.trans hmap
  · rfl
  · rename_i hget
    cases hget.symm.trans hmap

/-- The graph of values is the one of objects, seen through its pointers. -/
structure Represents (g : ObjectGraph ν) (p : PPDG ν) : Prop where
  vertexCount : p.vertices.length = g.graph.length
  map : ∀ d, p.valToVtxMap.get? d = g.getVertices d
  value : ∀ v < g.graph.length, p.getVertexValue v = (g.graph[v]?.bind fun q => g.objects[q]?).map Object.val

theorem Stands.represents (h : Stands calls g) (hp : Lists calls p) : Represents g p where
  vertexCount := by rw [hp.vertices, h.vertexCount]
  map d := by
    rw [hp.map]
    split_ifs with hempty
    · rw [ObjectGraph.getVertices, h.unseen d hempty, Option.map_none]
    · exact (h.getVertices_eq hempty).symm
  value v hv := by
    rw [h.vertexCount] at hv
    have hcall : calls[v]? = some (calls[v].1, calls[v].2) := List.getElem?_eq_getElem hv
    have hmem := mem_callsOf.mpr ⟨_, hcall⟩
    rw [PPDG.getVertexValue, hp.vertices, hcall, Option.map_some]
    rcases callsOf_cases (h.few calls[v].1) with hlist | ⟨i, hlist⟩ | ⟨i, j, -, hlist⟩
    · rw [hlist] at hmem
      cases hmem
    · rw [hlist, List.mem_singleton] at hmem
      subst hmem
      obtain ⟨-, hgraph, hobject⟩ := h.only _ _ _ hlist hcall
      rw [hgraph, Option.bind_some, hobject, Option.map_some, onlyObject, val_putTraceInfoByVertex]
    · obtain ⟨info, hi⟩ := mem_callsOf.mp (show i ∈ callsOf calls calls[v].1 by rw [hlist]; simp)
      obtain ⟨info', hj⟩ := mem_callsOf.mp (show j ∈ callsOf calls calls[v].1 by rw [hlist]; simp)
      obtain ⟨-, hfirst, hlast, hobject⟩ := h.second _ _ _ _ _ hlist hi hj
      have hgraph : g.graph[v]? = some j := by
        rw [hlist] at hmem
        rcases List.mem_cons.mp hmem with rfl | hmem
        · exact hfirst
        · rw [List.mem_singleton.mp hmem]
          exact hlast
      rw [hgraph, Option.bind_some, hobject, Option.map_some, secondObject, val_putTraceInfoByVertex, onlyObject,
        val_putTraceInfoByVertex]

/-- The two models of `createVertex` fail on the same calls, and otherwise leave the same graph. -/
theorem createVertices_refines (calls : List (DynValue ν × TraceInfo)) :
    (createVertices calls = none ∧ createValueVertices calls = none) ∨
      ∃ g p, createVertices calls = some g ∧ createValueVertices calls = some p ∧ Stands calls g ∧ Lists calls p ∧
        Represents g p := by
  induction calls using List.reverseRecOn with
  | nil => exact .inr ⟨_, _, rfl, rfl, stands_empty, lists_empty, stands_empty.represents lists_empty⟩
  | append_singleton calls c ih =>
      obtain ⟨d, traceInfo⟩ := c
      rw [createVertices_concat, createValueVertices_concat]
      rcases ih with ⟨hnone, hnone'⟩ | ⟨g, p, hg, hp, hstands, hlists, -⟩
      · rw [hnone, hnone']
        exact .inl ⟨rfl, rfl⟩
      · rw [hg, hp, Option.bind_some, Option.bind_some]
        by_cases hfew : (callsOf calls d).length ≤ 1
        · obtain ⟨g', hcall, hstands'⟩ := hstands.call traceInfo hfew
          obtain ⟨p', hcall', hlists'⟩ := hlists.createVertex traceInfo hfew
          exact .inr ⟨g', p', hcall, hcall', hstands', hlists', hstands'.represents hlists'⟩
        · have hle := hstands.few d
          obtain ⟨i, j, htwo⟩ := List.length_eq_two.mp (show (callsOf calls d).length = 2 by omega)
          exact .inl ⟨hstands.call_third htwo, hlists.createVertex_third htwo⟩

/-! ### The calls of the pass -/

/-- The call for a record, if there is one; `none` if a missing execution is dereferenced. -/
def foundCall (S : SlicerInput ν) (entry : Entry × Nat) : Option (Option (DynValue ν × TraceInfo)) :=
  (TraceScan.foundVertex S entry).map fun found => found.map fun d => (d, ⟨entry.2, entry.1, S.locateSrcInfo entry.1.id⟩)

def vertexCalls (S : SlicerInput ν) (entries : List (Entry × Nat)) : Option (List (DynValue ν × TraceInfo)) :=
  (entries.mapM (foundCall S)).map List.reduceOption

theorem generateVertex_loop (S : SlicerInput ν) (entries : List (Entry × Nat)) (p : PPDG ν) :
    entries.foldlM (generateVertex S) p =
      (vertexCalls S entries).bind fun calls => calls.foldlM (fun p c => p.createVertex c.1 c.2) p := by
  induction entries generalizing p with
  | nil => rfl
  | cons entry entries ih =>
      rw [List.foldlM_cons, TraceScan.generateVertex_eq, vertexCalls, List.mapM_cons, foundCall]
      cases hfound : TraceScan.foundVertex S entry with
      | none => rfl
      | some found =>
          cases found with
          | none =>
              simp only [Option.bind_some, Option.elim_none, Option.map_some, Option.map_none, Option.bind_eq_bind,
                Option.pure_def]
              rw [ih, vertexCalls]
              cases entries.mapM (foundCall S) <;> rfl
          | some d =>
              simp only [Option.bind_some, Option.elim_some, Option.map_some, Option.bind_eq_bind, Option.pure_def, ih,
                vertexCalls]
              cases entries.mapM (foundCall S) with
              | none => cases p.createVertex d ⟨entry.2, entry.1, S.locateSrcInfo entry.1.id⟩ <;> rfl
              | some calls => rfl

/-- The pass succeeds exactly if the calls on objects do, and its graph represents theirs. -/
theorem generateVertices_refines (S : SlicerInput ν) (trace : List Entry) (p : PPDG ν) :
    generateVertices S trace = some p ↔ ∃ calls g, vertexCalls S trace.zipIdx = some calls ∧ createVertices calls = some g ∧
      createValueVertices calls = some p ∧ Represents g p := by
  rw [generateVertices, generateVertex_loop, Option.bind_eq_some_iff]
  constructor
  · rintro ⟨calls, hcalls, hp⟩
    rcases createVertices_refines calls with ⟨-, hnone⟩ | ⟨g, p', hg, hp', -, -, hrepresents⟩
    · cases hnone.symm.trans hp
    · cases hp'.symm.trans hp
      exact ⟨calls, g, hcalls, hg, hp, hrepresents⟩
  · rintro ⟨calls, g, hcalls, -, hp, -⟩
    exact ⟨calls, hcalls, hp⟩

end Values

end Witcher.VertexObjects
