import Witcher.ObjectMerging
import Witcher.WitcherBeliefDatabase

/-! Looking up a range in a sorted list of disjoint objects. The bisection never probes the first and
the last object; those are compared after it, and only there an overlapped object has to contain the
range. -/

namespace Witcher

open Bisection Intervals

namespace PMObjectList

/-- Nonempty objects in order, none overlapping another. -/
structure Sorted (list : List PMObject) : Prop where
  proper : ∀ o ∈ list, o.span.Proper
  sorted : list.Pairwise fun o p => o.span.hi ≤ p.span.lo

namespace Sorted

variable {list : List PMObject}

theorem of_merged {ranges : List (Span Int)} (h : Merged ranges (list.map PMObject.span)) : Sorted list where
  proper _ ho := h.proper _ (List.mem_map_of_mem ho)
  sorted := List.pairwise_map.mp h.sorted

theorem of_disjoint (hpos : ∀ o ∈ list, 0 < o.size) (hsorted : list.Pairwise fun o p => o.address ≤ p.address)
    (hdisjoint : list.Pairwise fun o p => Disjoint o.span.points p.span.points) : Sorted list where
  proper o ho := Int.lt_add_of_pos_right _ (hpos o ho)
  sorted := by
    apply List.Pairwise.imp_of_mem _ (hsorted.and hdisjoint)
    intro o p _ hp h
    by_contra hlt
    have hpp : p.span.Proper := Int.lt_add_of_pos_right _ (hpos p hp)
    exact Set.disjoint_left.mp h.2 ⟨h.1, lt_of_not_ge hlt⟩ hpp.lo_mem

theorem before (h : Sorted list) {i j : Nat} (hi : i < list.length) (hj : j < list.length) (hij : i < j) :
    list[i].span.hi ≤ list[j].span.lo := List.pairwise_iff_getElem.mp h.sorted i j hi hj hij

theorem proper_getElem (h : Sorted list) {i : Nat} (hi : i < list.length) : list[i].span.lo < list[i].span.hi :=
  h.proper _ (List.getElem_mem hi)

/-- What comes before an object that ends before the target does not overlap it. -/
theorem not_overlap_of_le (h : Sorted list) {tgt : PMObject} {i j : Nat} (hi : i < list.length) (hj : j < list.length)
    (hij : i ≤ j) (hcmp : list[j].rangeCmp tgt = -1) : ¬list[i].span.Overlap tgt.span := by
  rw [PMObject.rangeCmp_eq_neg_one_iff] at hcmp
  rintro ⟨_, hlt⟩
  have hpj := h.proper_getElem hj
  rcases Nat.eq_or_lt_of_le hij with rfl | hlt'
  · omega
  · have hb := h.before hi hj hlt'
    omega

/-- What comes after an object that starts after the target does not overlap it. -/
theorem not_overlap_of_ge (h : Sorted list) {tgt : PMObject} {i j : Nat} (hi : i < list.length) (hj : j < list.length)
    (hij : j ≤ i) (hcmp : list[j].rangeCmp tgt = 1) : ¬list[i].span.Overlap tgt.span := by
  have hge : tgt.span.hi ≤ list[j].span.lo := le_of_rangeCmp_eq_one hcmp
  rintro ⟨hlt, _⟩
  have hpj := h.proper_getElem hj
  rcases Nat.eq_or_lt_of_le hij with rfl | hlt'
  · omega
  · have hb := h.before hj hi hlt'
    omega

end Sorted

theorem findProbe_eq {list : List PMObject} {tgt : PMObject} {i : Nat} (hi : i < list.length) :
    (findProbe list tgt i = .eq ↔ list[i].span.Overlap tgt.span) ∧
      (findProbe list tgt i = .lt → list[i].rangeCmp tgt = -1) ∧
      (findProbe list tgt i = .gt → list[i].rangeCmp tgt = 1) := by
  rw [findProbe, List.getElem?_eq_getElem hi, ← PMObject.rangeCmp_eq_zero_iff]
  have hcases : list[i].rangeCmp tgt = -1 ∨ list[i].rangeCmp tgt = 0 ∨ list[i].rangeCmp tgt = 1 := rangeCmp_cases _ _ _ _
  rcases hcases with h | h | h <;> simp [h]

/-- The comparison with the first and then with the last object. -/
def findAtEnds (first last tgtObj : PMObject) : Except ReplayError (Option PMObject) :=
  if first.rangeCmp tgtObj = 0 then do
    assertContains first tgtObj
    .ok (some first)
  else if last.rangeCmp tgtObj = 0 then do
    assertContains last tgtObj
    .ok (some last)
  else .ok none

theorem find_of_found {list : List PMObject} (hne : 0 < list.length) (address size : Int) {mid : Nat}
    (hsearch : search (findProbe list (PMObject.new address size)) (list.length - 1) 0 (list.length - 1) = .found mid)
    (hmid : mid < list.length) : find list address size = .ok (some list[mid]) := by
  simp only [find, decide_eq_true hne, assert_true, Loops.ok_bind, hsearch, item_eq hmid]

theorem find_of_gap {list : List PMObject} (hne : 0 < list.length) (address size : Int) {left right : Nat}
    (hsearch : search (findProbe list (PMObject.new address size)) (list.length - 1) 0 (list.length - 1) = .gap left right)
    (hleft : left < list.length) (hright : right < list.length) :
    find list address size = findAtEnds list[left] list[right] (PMObject.new address size) := by
  simp only [find, decide_eq_true hne, assert_true, Loops.ok_bind, hsearch, item_eq hleft, item_eq hright, findAtEnds]

/-- If an object other than the first and the last overlaps the range, such an object is found;
otherwise the two ends decide. -/
theorem find_spec {list : List PMObject} (h : Sorted list) (hne : 0 < list.length) (address size : Int) :
    (∃ i, ∃ hi : i < list.length, 0 < i ∧ i + 1 < list.length ∧ list[i].span.Overlap (PMObject.new address size).span ∧
      find list address size = .ok (some list[i])) ∨
    ((∀ i, ∀ hi : i < list.length, 0 < i → i + 1 < list.length →
        ¬list[i].span.Overlap (PMObject.new address size).span) ∧
      find list address size = findAtEnds list[0] list[list.length - 1] (PMObject.new address size)) := by
  have hfound := @find_of_found list hne address size
  have hgap := @find_of_gap list hne address size
  generalize PMObject.new address size = tgt at hfound hgap ⊢
  by_cases hone : list.length = 1
  · right
    exact ⟨by omega, hgap (search_of_le _ _ _ _ (by omega)) hne (by omega)⟩
  · rcases search_spec (findProbe list tgt) (list.length - 1) 0 (list.length - 1) (by omega) (by omega) with
      ⟨mid, hsearch, hlow, hhigh, hprobe⟩ | ⟨l, hsearch, _, hle, hlow, hhigh⟩
    · left
      have hmid : mid < list.length := by omega
      refine ⟨mid, hmid, hlow, by omega, (findProbe_eq hmid).1.mp hprobe, ?_⟩
      exact hfound hsearch hmid
    · right
      have hl : l < list.length := by omega
      have hr : l + 1 < list.length := by omega
      -- everything up to `l` is the first object or lies before the target, and likewise on the right
      have hleft : ∀ i, ∀ hi : i < list.length, i ≤ l → i = 0 ∧ l = 0 ∨ ¬list[i].span.Overlap tgt.span := by
        intro i hi hil
        rcases hlow with hl0 | hlt
        · exact .inl ⟨by omega, hl0⟩
        · exact .inr (h.not_overlap_of_le hi hl hil ((findProbe_eq hl).2.1 hlt))
      have hright : ∀ i, ∀ hi : i < list.length, l + 1 ≤ i →
          i = list.length - 1 ∧ l + 1 = list.length - 1 ∨ ¬list[i].span.Overlap tgt.span := by
        intro i hi hil
        rcases hhigh with hrn | hgt
        · exact .inl ⟨by omega, hrn⟩
        · exact .inr (h.not_overlap_of_ge hi hr hil ((findProbe_eq hr).2.2 hgt))
      refine ⟨?_, ?_⟩
      · intro i hi hpos hlast
        by_cases hil : i ≤ l
        · rcases hleft i hi hil with ⟨h0, _⟩ | hnot
          · omega
          · exact hnot
        · rcases hright i hi (by omega) with ⟨hn, _⟩ | hnot
          · omega
          · exact hnot
      · have hfirst : (list[l].rangeCmp tgt = 0 ↔ list[0].rangeCmp tgt = 0) ∧
            (list[l].rangeCmp tgt = 0 → list[l] = list[0]) := by
          simp only [PMObject.rangeCmp_eq_zero_iff]
          rcases hleft l hl (le_refl l) with ⟨h0, _⟩ | hnot
          · simp [h0]
          · rcases hleft 0 hne (Nat.zero_le l) with ⟨_, h0⟩ | hnot'
            · simp [h0]
            · exact ⟨iff_of_false hnot hnot', fun h => absurd h hnot⟩
        have hlast : (list[l + 1].rangeCmp tgt = 0 ↔ list[list.length - 1].rangeCmp tgt = 0) ∧
            (list[l + 1].rangeCmp tgt = 0 → list[l + 1] = list[list.length - 1]) := by
          simp only [PMObject.rangeCmp_eq_zero_iff]
          rcases hright (l + 1) hr (le_refl _) with ⟨hn, _⟩ | hnot
          · simp [hn]
          · rcases hright (list.length - 1) (by omega) (by omega) with ⟨_, hn⟩ | hnot'
            · simp [hn]
            · exact ⟨iff_of_false hnot hnot', fun h => absurd h hnot⟩
        rw [hgap hsearch hl hr, findAtEnds, findAtEnds]
        by_cases h0 : list[l].rangeCmp tgt = 0
        · rw [if_pos h0, if_pos (hfirst.1.mp h0), hfirst.2 h0]
        · rw [if_neg h0, if_neg (fun h => h0 (hfirst.1.mpr h))]
          by_cases hn : list[l + 1].rangeCmp tgt = 0
          · rw [if_pos hn, if_pos (hlast.1.mp hn), hlast.2 hn]
          · rw [if_neg hn, if_neg (fun h => hn (hlast.1.mpr h))]

theorem assertContains_of_inside {o tgt : PMObject} (h : tgt.span.Inside o.span) : assertContains o tgt = .ok () := by
  rw [assertContains, decide_eq_true (show o.getBaseAddress ≤ tgt.getBaseAddress from h.1),
    decide_eq_true (show o.getMaxAddress ≥ tgt.getMaxAddress from h.2)]
  rfl

theorem overlap_of_inside {o tgt : PMObject} (htgt : tgt.span.Proper) (h : tgt.span.Inside o.span) :
    o.span.Overlap tgt.span := ⟨lt_of_le_of_lt h.1 htgt, lt_of_lt_of_le htgt h.2⟩

/-- An object that overlaps a range is the one that contains it, if there is one. -/
theorem Sorted.eq_of_overlap {list : List PMObject} (h : Sorted list) {o p tgt : PMObject} (ho : o ∈ list) (hp : p ∈ list)
    (htgt : tgt.span.Proper) (hin : tgt.span.Inside o.span) (hoverlap : p.span.Overlap tgt.span) : p = o := by
  obtain ⟨x, hxp, hxt⟩ := (Span.overlap_iff (h.proper p hp) htgt).mp hoverlap
  exact eq_of_mem_points PMObject.span h.sorted hp ho hxp (hin.subset hxt)

theorem find_of_inside {list : List PMObject} (h : Sorted list) {address size : Int} (hsize : 0 < size) {o : PMObject}
    (ho : o ∈ list) (hin : (PMObject.new address size).span.Inside o.span) :
    find list address size = .ok (some o) := by
  have htgt : (PMObject.new address size).span.Proper := Int.lt_add_of_pos_right _ hsize
  have hoverlap := overlap_of_inside htgt hin
  obtain ⟨k, hk, rfl⟩ := List.mem_iff_getElem.mp ho
  have honly : ∀ i, ∀ hi : i < list.length, list[i].span.Overlap (PMObject.new address size).span → list[i] = list[k] :=
    fun i hi => h.eq_of_overlap (List.getElem_mem hk) (List.getElem_mem hi) htgt hin
  rcases find_spec h (by omega) address size with ⟨i, hi, _, _, hover, hfind⟩ | ⟨hnone, hfind⟩
  · rw [hfind, honly i hi hover]
  · rw [hfind, findAtEnds]
    by_cases hfirst : list[0].rangeCmp (PMObject.new address size) = 0
    · rw [if_pos hfirst, honly 0 _ ((PMObject.rangeCmp_eq_zero_iff _ _).mp hfirst), assertContains_of_inside hin]
      rfl
    · have hlast : k = list.length - 1 := by
        by_contra hne
        have hpos : 0 < k := by
          by_contra h0
          have hk0 : k = 0 := by omega
          subst hk0
          exact hfirst ((PMObject.rangeCmp_eq_zero_iff _ _).mpr hoverlap)
        exact hnone k hk hpos (by omega) hoverlap
      subst hlast
      rw [if_neg hfirst, if_pos ((PMObject.rangeCmp_eq_zero_iff _ _).mpr hoverlap), assertContains_of_inside hin]
      rfl

theorem find_of_not_overlap {list : List PMObject} (h : Sorted list) (hne : 0 < list.length) {address size : Int}
    (hnone : ∀ o ∈ list, ¬o.span.Overlap (PMObject.new address size).span) : find list address size = .ok none := by
  rcases find_spec h hne address size with ⟨i, hi, _, _, hover, _⟩ | ⟨_, hfind⟩
  · exact absurd hover (hnone _ (List.getElem_mem hi))
  · rw [hfind, findAtEnds, if_neg, if_neg]
    · exact fun h => hnone _ (List.getElem_mem _) ((PMObject.rangeCmp_eq_zero_iff _ _).mp h)
    · exact fun h => hnone _ (List.getElem_mem _) ((PMObject.rangeCmp_eq_zero_iff _ _).mp h)

end PMObjectList

namespace WitcherBeliefDatabase

open PMObjectList

/-- The objects inserted for the nodes of a graph. -/
def nodeObjects (nodes : List (Option WitcherGraphNode)) : List PMObject :=
  nodes.flatMap fun node =>
    match node with
    | some node => if node.size > 0 then [.new node.address node.size] else []
    | none => []

theorem foldlM_insertNode (nodes : List (Option WitcherGraphNode)) (hattr : none ∉ nodes) (list : List PMObject) :
    nodes.foldlM insertNode list = (nodeObjects nodes).foldlM PMObjectList.insert list := by
  induction nodes generalizing list with
  | nil => rfl
  | cons node nodes ih =>
      cases node with
      | none => exact absurd List.mem_cons_self hattr
      | some node =>
          have hrest := ih fun hmem => hattr (List.mem_cons_of_mem _ hmem)
          rw [List.foldlM_cons, nodeObjects, List.flatMap_cons, ← nodeObjects]
          by_cases hsize : node.size > 0
          · simp only [insertNode, if_pos hsize, List.singleton_append, List.foldlM_cons, hrest]
          · simp only [insertNode, if_neg hsize, List.nil_append, Loops.ok_bind, hrest]

def graphObjects (graphs : List WitcherGraph) : List PMObject := graphs.flatMap fun g => nodeObjects g.nodes.values

theorem initPmObjectList_eq (graphs : List WitcherGraph) (hattr : ∀ g ∈ graphs, none ∉ g.nodes.values) :
    initPmObjectList graphs = insertAll (graphObjects graphs) := by
  rw [initPmObjectList, insertAll]
  generalize ([] : List PMObject) = list
  induction graphs generalizing list with
  | nil => rfl
  | cons g graphs ih =>
      rw [List.foldlM_cons, initPmObjectListFromGraph, foldlM_insertNode _ (hattr g List.mem_cons_self), graphObjects,
        List.flatMap_cons, List.foldlM_append]
      apply bind_congr
      intro list'
      exact ih (fun g' hg' => hattr g' (List.mem_cons_of_mem g hg')) list'

theorem none_not_mem_values {g : WitcherGraph} (h : WitcherGraph.Complete g) : none ∉ g.nodes.values := by
  intro hmem
  obtain ⟨⟨k, a⟩, he, rfl⟩ := List.mem_map.mp hmem
  obtain ⟨node, hget, _⟩ := h k (List.mem_map_of_mem he)
  rw [(Dict.mem_entries_iff _ _ _).mp he] at hget
  cases hget

theorem mem_graphObjects {graphs : List WitcherGraph} {g : WitcherGraph} (hg : g ∈ graphs) {k : Int}
    {node : WitcherGraphNode} (hnode : g.node k = some node) (hsize : 0 < node.size) :
    PMObject.new node.address node.size ∈ graphObjects graphs := by
  have hget : g.nodes.get? k = some (some node) := Option.join_eq_some_iff.mp hnode
  have hmem : some node ∈ g.nodes.values := List.mem_map_of_mem ((Dict.mem_entries_iff _ _ _).mpr hget)
  refine List.mem_flatMap.mpr ⟨g, hg, List.mem_flatMap.mpr ⟨some node, hmem, ?_⟩⟩
  simp [hsize]

theorem pos_of_mem_graphObjects {graphs : List WitcherGraph} {o : PMObject} (h : o ∈ graphObjects graphs) :
    0 < o.size := by
  obtain ⟨g, _, h⟩ := List.mem_flatMap.mp h
  obtain ⟨node, _, h⟩ := List.mem_flatMap.mp h
  cases node with
  | none => cases h
  | some node =>
      simp only at h
      split_ifs at h with hsize
      · rw [List.mem_singleton.mp h]
        exact hsize
      · cases h

/-- The objects of complete graphs: sorted, and every nonempty node lies in one of them. -/
theorem initPmObjectList_ok (graphs : List WitcherGraph) (hcomplete : ∀ g ∈ graphs, WitcherGraph.Complete g) :
    ∃ list, initPmObjectList graphs = .ok list ∧ Sorted list ∧
      ∀ g ∈ graphs, ∀ k node, g.node k = some node → 0 < node.size →
        ∃ o ∈ list, (PMObject.new node.address node.size).span.Inside o.span := by
  obtain ⟨list, hrun, hmerged⟩ := insertAll_merged (graphObjects graphs) fun o => pos_of_mem_graphObjects
  refine ⟨list, ?_, .of_merged hmerged, ?_⟩
  · rw [initPmObjectList_eq graphs fun g hg => none_not_mem_values (hcomplete g hg), hrun]
  · intro g hg k node hnode hsize
    obtain ⟨s, hs, hin⟩ := hmerged.inside _ (List.mem_map_of_mem (mem_graphObjects hg hnode hsize))
    obtain ⟨o, ho, rfl⟩ := List.mem_map.mp hs
    exact ⟨o, ho, hin⟩

/-- The lookup in a nonempty sorted list of disjoint objects finds the object that contains the range
and nothing if no object overlaps it; so every nonempty graph node is found after the objects of all
graphs were inserted. -/
theorem find_exact :
    (∀ (list : List PMObject) (address size : Int), list ≠ [] → (∀ o ∈ list, 0 < o.size) →
      list.Pairwise (fun o p => o.address ≤ p.address) →
      list.Pairwise (fun o p => Disjoint o.span.points p.span.points) → 0 < size →
        (∀ o ∈ list, (PMObject.new address size).span.Inside o.span → find list address size = .ok (some o)) ∧
          ((∀ o ∈ list, Disjoint o.span.points (PMObject.new address size).span.points) →
            find list address size = .ok none)) ∧
      ∀ graphs : List WitcherGraph, (∀ g ∈ graphs, WitcherGraph.Complete g) →
        ∃ list, initPmObjectList graphs = .ok list ∧ ∀ g ∈ graphs, ∀ k node, g.node k = some node → 0 < node.size →
          (∃! o, o ∈ list ∧ (PMObject.new node.address node.size).span.Inside o.span) ∧
            ∃ o ∈ list, (PMObject.new node.address node.size).span.Inside o.span ∧
              find list node.address node.size = .ok (some o) := by
  constructor
  · intro list address size hne hpos hsorted hdisjoint hsize
    have h := Sorted.of_disjoint hpos hsorted hdisjoint
    have htgt : (PMObject.new address size).span.Proper := Int.lt_add_of_pos_right _ hsize
    refine ⟨fun o ho hin => find_of_inside h hsize ho hin, ?_⟩
    intro hnone
    apply find_of_not_overlap h (List.length_pos_of_ne_nil hne)
    intro o ho hoverlap
    obtain ⟨x, hxo, hxt⟩ := (Span.overlap_iff (h.proper o ho) htgt).mp hoverlap
    exact Set.disjoint_left.mp (hnone o ho) hxo hxt
  · intro graphs hcomplete
    obtain ⟨list, hrun, hsorted, hinside⟩ := initPmObjectList_ok graphs hcomplete
    refine ⟨list, hrun, ?_⟩
    intro g hg k node hnode hsize
    have htgt : (PMObject.new node.address node.size).span.Proper := Int.lt_add_of_pos_right _ hsize
    obtain ⟨o, ho, hin⟩ := hinside g hg k node hnode hsize
    refine ⟨⟨o, ⟨ho, hin⟩, ?_⟩, o, ho, hin, find_of_inside hsorted hsize ho hin⟩
    rintro p ⟨hp, hin'⟩
    exact eq_of_mem_points PMObject.span hsorted.sorted hp ho (hin'.subset htgt.lo_mem) (hin.subset htgt.lo_mem)

/-- The last of three objects, found after the bisection. -/
theorem find_exact_last : find [.new 0 8, .new 16 8, .new 32 16] 40 4 = .ok (some (.new 32 16)) := by
  have hdisjoint : [PMObject.new 0 8, .new 16 8, .new 32 16].Pairwise
      (fun o p => Disjoint o.span.points p.span.points) := by
    simp [PMObject.span, PMObject.new, Span.points, PMObject.getBaseAddress, PMObject.getMaxAddress,
      Set.disjoint_left]
    refine ⟨⟨?_, ?_⟩, ?_⟩ <;> (intros; omega)
  exact (find_exact.1 [.new 0 8, .new 16 8, .new 32 16] 40 4 (by decide) (by decide) (by decide) hdisjoint
    (by decide)).1 _ (by decide) ⟨by decide, by decide⟩

end WitcherBeliefDatabase

end Witcher
