import Witcher.BeliefInference

/-! Classification of the stores of a trace. The stores are looked up at the objects of the graphs that
were not dropped, so a store may stick out of the object it overlaps. The lookup accepts this while it
bisects, but not when it compares with the first and the last object. -/

namespace Witcher

open Intervals

namespace PMObjectList

variable {list : List PMObject} {address size : Int}

/-- The range overlaps no object, lies inside one, or overlaps one between the first and the last. -/
def Findable (list : List PMObject) (tgt : PMObject) : Prop :=
  (∀ o ∈ list, ¬o.span.Overlap tgt.span) ∨ (∃ o ∈ list, tgt.span.Inside o.span) ∨
    ∃ i, ∃ h : i < list.length, 0 < i ∧ i + 1 < list.length ∧ list[i].span.Overlap tgt.span

/-- `o` is the only object that overlaps the range. -/
def Only (list : List PMObject) (o tgt : PMObject) : Prop := ∀ p ∈ list, p.span.Overlap tgt.span ↔ p = o

theorem assertContains_ok {o tgt : PMObject} {u : Unit} (h : assertContains o tgt = .ok u) : tgt.span.Inside o.span := by
  obtain ⟨_, hlow, hhigh⟩ := Loops.bind_ok h
  exact ⟨of_decide_eq_true (assert_ok hlow), of_decide_eq_true (assert_ok hhigh)⟩

/-- An object that overlaps a range some object contains contains the range itself; an empty range
lies inside every object it overlaps. -/
theorem Sorted.inside_of_overlap (h : Sorted list) {o p tgt : PMObject} (ho : o ∈ list) (hp : p ∈ list)
    (htgt : tgt.span.lo ≤ tgt.span.hi) (hin : tgt.span.Inside o.span) (hoverlap : p.span.Overlap tgt.span) :
    tgt.span.Inside p.span := by
  rcases lt_or_eq_of_le htgt with hproper | hempty
  · rw [h.eq_of_overlap ho hp hproper hin hoverlap]
    exact hin
  · obtain ⟨hlo, hhi⟩ := hoverlap
    exact ⟨by omega, by omega⟩

theorem findAtEnds_ok {first last tgt : PMObject} (hfirst : first.span.Overlap tgt.span → tgt.span.Inside first.span)
    (hlast : last.span.Overlap tgt.span → tgt.span.Inside last.span) : ∃ r, findAtEnds first last tgt = .ok r := by
  rw [findAtEnds]
  split_ifs with hf hl
  · rw [assertContains_of_inside (hfirst ((PMObject.rangeCmp_eq_zero_iff _ _).mp hf))]
    exact ⟨_, rfl⟩
  · rw [assertContains_of_inside (hlast ((PMObject.rangeCmp_eq_zero_iff _ _).mp hl))]
    exact ⟨_, rfl⟩
  · exact ⟨none, rfl⟩

/-- The ends answer with an end that contains the range, or neither of them overlaps it. -/
theorem findAtEnds_cases {first last tgt : PMObject} {r : Option PMObject} (h : findAtEnds first last tgt = .ok r) :
    (r = some first ∧ first.span.Overlap tgt.span ∧ tgt.span.Inside first.span) ∨
      (r = some last ∧ last.span.Overlap tgt.span ∧ tgt.span.Inside last.span) ∨
      (r = none ∧ ¬first.span.Overlap tgt.span ∧ ¬last.span.Overlap tgt.span) := by
  rw [findAtEnds] at h
  simp only [← PMObject.rangeCmp_eq_zero_iff first tgt, ← PMObject.rangeCmp_eq_zero_iff last tgt]
  split_ifs at h with hf hl
  · obtain ⟨_, hin, h⟩ := Loops.bind_ok h
    cases h
    exact .inl ⟨rfl, hf, assertContains_ok hin⟩
  · obtain ⟨_, hin, h⟩ := Loops.bind_ok h
    cases h
    exact .inr (.inl ⟨rfl, hl, assertContains_ok hin⟩)
  · cases h
    exact .inr (.inr ⟨rfl, hf, hl⟩)

theorem eq_first_or_last_or_between {i : Nat} (hi : i < list.length) :
    i = 0 ∨ i = list.length - 1 ∨ 0 < i ∧ i + 1 < list.length := by
  omega

/-- The answer of a lookup overlaps the range, and no object does if there is no answer. -/
theorem find_sound (h : Sorted list) (hne : 0 < list.length) {r : Option PMObject}
    (hfind : find list address size = .ok r) :
    (∀ o, r = some o → o ∈ list ∧ o.span.Overlap (PMObject.new address size).span) ∧
      (r = none → ∀ o ∈ list, ¬o.span.Overlap (PMObject.new address size).span) := by
  rcases find_spec h hne address size with ⟨i, hi, _, _, hover, heq⟩ | ⟨hnone, heq⟩
  · cases hfind.symm.trans heq
    refine ⟨?_, fun h => by cases h⟩
    rintro o ⟨⟩
    exact ⟨List.getElem_mem hi, hover⟩
  · rcases findAtEnds_cases (heq.symm.trans hfind) with ⟨rfl, hover, _⟩ | ⟨rfl, hover, _⟩ | ⟨rfl, hfirst, hlast⟩
    · refine ⟨?_, fun h => by cases h⟩
      rintro o ⟨⟩
      exact ⟨List.getElem_mem _, hover⟩
    · refine ⟨?_, fun h => by cases h⟩
      rintro o ⟨⟩
      exact ⟨List.getElem_mem _, hover⟩
    · refine ⟨by simp, ?_⟩
      intro _ o ho
      obtain ⟨i, hi, rfl⟩ := List.mem_iff_getElem.mp ho
      rcases eq_first_or_last_or_between hi with rfl | rfl | ⟨hpos, hlt⟩
      · exact hfirst
      · exact hlast
      · exact hnone i hi hpos hlt

theorem find_of_only (h : Sorted list) (hne : 0 < list.length) {r : Option PMObject}
    (hfind : find list address size = .ok r) {o : PMObject} (ho : o ∈ list)
    (honly : Only list o (.new address size)) : r = some o := by
  obtain ⟨hsome, hnone⟩ := find_sound h hne hfind
  cases r with
  | none => exact absurd ((honly o ho).mpr rfl) (hnone rfl o ho)
  | some p =>
      obtain ⟨hp, hover⟩ := hsome p rfl
      rw [(honly p hp).mp hover]

/-- A lookup raises exactly if the range sticks out of the object found at one of the ends. -/
theorem find_ok_iff (h : Sorted list) (hne : 0 < list.length) (hsize : 0 ≤ size) :
    (∃ r, find list address size = .ok r) ↔ Findable list (.new address size) := by
  have htgt : (PMObject.new address size).span.lo ≤ (PMObject.new address size).span.hi := Int.le_add_of_nonneg_right hsize
  constructor
  · rintro ⟨r, hfind⟩
    rcases find_spec h hne address size with ⟨i, hi, hpos, hlt, hover, _⟩ | ⟨_, heq⟩
    · exact .inr (.inr ⟨i, hi, hpos, hlt, hover⟩)
    · rcases findAtEnds_cases (heq.symm.trans hfind) with ⟨_, _, hin⟩ | ⟨_, _, hin⟩ | ⟨hr, _, _⟩
      · exact .inr (.inl ⟨_, List.getElem_mem _, hin⟩)
      · exact .inr (.inl ⟨_, List.getElem_mem _, hin⟩)
      · exact .inl ((find_sound h hne hfind).2 hr)
  · intro hfindable
    rcases find_spec h hne address size with ⟨i, hi, _, _, _, heq⟩ | ⟨hbetween, heq⟩
    · exact ⟨_, heq⟩
    · rw [heq]
      rcases hfindable with hnone | ⟨o, ho, hin⟩ | ⟨i, hi, hpos, hlt, hover⟩
      · exact findAtEnds_ok (fun hover => absurd hover (hnone _ (List.getElem_mem _)))
          fun hover => absurd hover (hnone _ (List.getElem_mem _))
      · exact findAtEnds_ok (h.inside_of_overlap ho (List.getElem_mem _) htgt hin)
          (h.inside_of_overlap ho (List.getElem_mem _) htgt hin)
      · exact absurd hover (hbetween i hi hpos hlt)

end PMObjectList

namespace WitcherBeliefDatabase

open PMObjectList

def target (st : Store) : PMObject := .new st.address st.size

/-- A question to the database, as the replay engines ask them. -/
inductive Query where
  | isCriticalStore (store : Store)
  | violateOrderingBelief (pSt vSt : Store)

def Query.stores : Query → List Store
  | .isCriticalStore store => [store]
  | .violateOrderingBelief pSt vSt => [pSt, vSt]

def ask (db : WitcherBeliefDatabase) (q : Query) : Except ReplayError WitcherBeliefDatabase :=
  match q with
  | .isCriticalStore store => do
      let (_, db) ← db.isCriticalStore store
      .ok db
  | .violateOrderingBelief pSt vSt => do
      let (_, db) ← db.violateOrderingBelief pSt vSt
      .ok db

/-- Both classifications answer, and a store that overlaps exactly one object is classified by it. -/
def Classifies (db : WitcherBeliefDatabase) (pSt vSt : Store) : Prop :=
  (∃ b db', db.isCriticalStore pSt = .ok (b, db') ∧
    ∀ o ∈ db.pmObjectList, Only db.pmObjectList o (target pSt) → (b = true ↔ o.id ∈ db.beliefs.criticalReadSet)) ∧
  ∃ b db', db.violateOrderingBelief pSt vSt = .ok (b, db') ∧
    ∀ p ∈ db.pmObjectList, ∀ v ∈ db.pmObjectList, Only db.pmObjectList p (target pSt) →
      Only db.pmObjectList v (target vSt) → (b = true ↔ (v.id, p.id) ∈ db.beliefs.beliefGraph.edges.keys)

/-! ### The cache -/

variable {stores : List Store} {db0 db : WitcherBeliefDatabase}

/-- The objects and beliefs are those of `db0`, and the cache answers what a lookup answers. -/
structure Cached (stores : List Store) (db0 db : WitcherBeliefDatabase) : Prop where
  list : db.pmObjectList = db0.pmObjectList
  beliefs : db.beliefs = db0.beliefs
  cache : ∀ st ∈ stores, ∀ r, db.dictStoreToObj.get? st.id = some r →
    find db0.pmObjectList st.address st.size = .ok r

theorem Cached.fresh (hdict : db.dictStoreToObj = Dict.empty) : Cached stores db db := by
  refine ⟨rfl, rfl, ?_⟩
  intro st _ r hget
  rw [hdict] at hget
  cases hget

theorem getPmObject_eq (h : Cached stores db0 db) {st : Store} (hst : st ∈ stores) {r : Option PMObject}
    (hfind : find db0.pmObjectList st.address st.size = .ok r) (hids : (stores.map (·.id)).Nodup) :
    ∃ db', db.getPmObject st = .ok (r, db') ∧ Cached stores db0 db' := by
  cases hget : db.dictStoreToObj.get? st.id with
  | some r' =>
      cases (h.cache st hst r' hget).symm.trans hfind
      exact ⟨db, by simp only [getPmObject, hget], h⟩
  | none =>
      have hfind' : find db.pmObjectList st.address st.size = .ok r := by
        rw [h.list]
        exact hfind
      refine ⟨{ db with dictStoreToObj := db.dictStoreToObj.set st.id r }, ?_, h.list, h.beliefs, ?_⟩
      · simp only [getPmObject, hget, hfind', Loops.ok_bind]
      intro s hs r' hr'
      rw [Dict.get?_set] at hr'
      split_ifs at hr' with hid
      · cases hr'
        rw [List.inj_on_of_nodup_map hids hs hst hid]
        exact hfind
      · exact h.cache s hs r' hr'

theorem getPmObject_ok (h : Cached stores db0 db) {st : Store} (hst : st ∈ stores) (hids : (stores.map (·.id)).Nodup)
    {r : Option PMObject} {db' : WitcherBeliefDatabase} (hget : db.getPmObject st = .ok (r, db')) :
    find db0.pmObjectList st.address st.size = .ok r ∧ Cached stores db0 db' := by
  have hfind : find db0.pmObjectList st.address st.size = .ok r := by
    cases hcache : db.dictStoreToObj.get? st.id with
    | some r' =>
        simp only [getPmObject, hcache] at hget
        cases hget
        exact h.cache st hst r hcache
    | none =>
        simp only [getPmObject, hcache, h.list] at hget
        obtain ⟨r', hfind, hget⟩ := Loops.bind_ok hget
        cases hget
        exact hfind
  obtain ⟨db'', hget', hdb''⟩ := getPmObject_eq h hst hfind hids
  cases hget.symm.trans hget'
  exact ⟨hfind, hdb''⟩

theorem isCriticalStore_ok (h : Cached stores db0 db) {st : Store} (hst : st ∈ stores) (hids : (stores.map (·.id)).Nodup)
    {b : Bool} {db' : WitcherBeliefDatabase} (hask : db.isCriticalStore st = .ok (b, db')) :
    (∃ r, find db0.pmObjectList st.address st.size = .ok r) ∧ Cached stores db0 db' := by
  obtain ⟨⟨r, db1⟩, hget, hask⟩ := Loops.bind_ok hask
  obtain ⟨hfind, hdb1⟩ := getPmObject_ok h hst hids hget
  refine ⟨⟨r, hfind⟩, ?_⟩
  cases r <;> cases hask <;> exact hdb1

theorem violateOrderingBelief_ok (h : Cached stores db0 db) {pSt vSt : Store} (hp : pSt ∈ stores) (hv : vSt ∈ stores)
    (hids : (stores.map (·.id)).Nodup) {b : Bool} {db' : WitcherBeliefDatabase}
    (hask : db.violateOrderingBelief pSt vSt = .ok (b, db')) :
    (∃ r, find db0.pmObjectList pSt.address pSt.size = .ok r) ∧
      (∃ r, find db0.pmObjectList vSt.address vSt.size = .ok r) ∧ Cached stores db0 db' := by
  obtain ⟨⟨p, db1⟩, hgetp, hask⟩ := Loops.bind_ok hask
  obtain ⟨hfindp, hdb1⟩ := getPmObject_ok h hp hids hgetp
  obtain ⟨⟨v, db2⟩, hgetv, hask⟩ := Loops.bind_ok hask
  obtain ⟨hfindv, hdb2⟩ := getPmObject_ok hdb1 hv hids hgetv
  refine ⟨⟨p, hfindp⟩, ⟨v, hfindv⟩, ?_⟩
  cases p with
  | none => cases hask; exact hdb2
  | some p =>
      cases v with
      | none => cases hask; exact hdb2
      | some v =>
          simp only at hask
          split_ifs at hask
          cases hask
          exact hdb2

theorem ask_cached (hids : (stores.map (·.id)).Nodup) {db db' : WitcherBeliefDatabase} (h : Cached stores db0 db)
    {q : Query} (hq : ∀ st ∈ q.stores, st ∈ stores) (hask : ask db q = .ok db') : Cached stores db0 db' := by
  cases q with
  | isCriticalStore st =>
      obtain ⟨⟨b, db1⟩, hask, heq⟩ := Loops.bind_ok hask
      cases heq
      exact (isCriticalStore_ok h (hq st List.mem_cons_self) hids hask).2
  | violateOrderingBelief pSt vSt =>
      obtain ⟨⟨b, db1⟩, hask, heq⟩ := Loops.bind_ok hask
      cases heq
      exact (violateOrderingBelief_ok h (hq pSt List.mem_cons_self)
        (hq vSt (List.mem_cons_of_mem pSt List.mem_cons_self)) hids hask).2.2

theorem foldlM_ask_cached (hids : (stores.map (·.id)).Nodup) {queries : List Query}
    (hqueries : ∀ q ∈ queries, ∀ st ∈ q.stores, st ∈ stores) {db db' : WitcherBeliefDatabase}
    (h : Cached stores db0 db) (hrun : queries.foldlM ask db = .ok db') : Cached stores db0 db' := by
  induction queries generalizing db with
  | nil =>
      cases hrun
      exact h
  | cons q queries ih =>
      rw [List.foldlM_cons] at hrun
      obtain ⟨db1, hask, hrun⟩ := Loops.bind_ok hrun
      have hq := hqueries q List.mem_cons_self
      exact ih (fun q' hq' => hqueries q' (List.mem_cons_of_mem q hq')) (ask_cached hids h hq hask) hrun

/-! ### Classification -/

/-- The two classifications answer exactly if both lookups do. -/
theorem classifies_iff_find (hsorted : Sorted db0.pmObjectList) (hne : 0 < db0.pmObjectList.length)
    (hnodes : ∀ o ∈ db0.pmObjectList, db0.beliefs.beliefGraph.hasNode o.id) (hids : (stores.map (·.id)).Nodup)
    (h : Cached stores db0 db) {pSt vSt : Store} (hp : pSt ∈ stores) (hv : vSt ∈ stores) :
    Classifies db pSt vSt ↔ (∃ r, find db0.pmObjectList pSt.address pSt.size = .ok r) ∧
      ∃ r, find db0.pmObjectList vSt.address vSt.size = .ok r := by
  constructor
  · rintro ⟨_, b, db', hask, _⟩
    obtain ⟨hfindp, hfindv, _⟩ := violateOrderingBelief_ok h hp hv hids hask
    exact ⟨hfindp, hfindv⟩
  · rintro ⟨⟨rp, hfindp⟩, rv, hfindv⟩
    obtain ⟨db1, hgetp, hdb1⟩ := getPmObject_eq h hp hfindp hids
    obtain ⟨db2, hgetv, hdb2⟩ := getPmObject_eq hdb1 hv hfindv hids
    rw [Classifies, h.list, h.beliefs]
    constructor
    · rw [isCriticalStore, hgetp]
      cases rp with
      | none =>
          refine ⟨false, db1, rfl, ?_⟩
          intro o ho honly
          cases find_of_only hsorted hne hfindp ho honly
      | some p =>
          refine ⟨_, db1, rfl, ?_⟩
          intro o ho honly
          cases find_of_only hsorted hne hfindp ho honly
          rw [hdb1.beliefs, decide_eq_true_iff]
    · rw [violateOrderingBelief, hgetp, Loops.ok_bind]
      simp only [hgetv, Loops.ok_bind]
      cases rp with
      | none =>
          refine ⟨false, db2, rfl, ?_⟩
          intro p hp' v _ honly
          cases find_of_only hsorted hne hfindp hp' honly
      | some p =>
          cases rv with
          | none =>
              refine ⟨false, db2, rfl, ?_⟩
              intro p _ v hv' _ honly
              cases find_of_only hsorted hne hfindv hv' honly
          | some v =>
              have hnode : db2.beliefs.beliefGraph.hasNode v.id := by
                rw [hdb2.beliefs]
                exact hnodes v ((find_sound hsorted hne hfindv).1 v rfl).1
              refine ⟨_, db2, if_pos hnode, ?_⟩
              intro p' hp' v' hv' honlyp honlyv
              cases find_of_only hsorted hne hfindp hp' honlyp
              cases find_of_only hsorted hne hfindv hv' honlyv
              rw [hdb2.beliefs, decide_eq_true_iff, DiGraph.mem_successors]

/-- The database of any valid graphs, after any questions about the stores of a trace, classifies a
pair of stores exactly if each of them overlaps no object, lies inside one, or overlaps an object that
is neither the first nor the last. -/
theorem classifies_iff (graphs : List WitcherGraph) (hvalid : ∀ g ∈ graphs, g.Valid)
    (hpos : ∃ g ∈ graphs, ∃ k node, g.node k = some node ∧ 0 < node.size) :
    ∃ db, new graphs = .ok db ∧ ∀ (stores : List Store) (queries : List Query) (db' : WitcherBeliefDatabase),
      (stores.map (·.id)).Nodup → (∀ q ∈ queries, ∀ st ∈ q.stores, st ∈ stores) → queries.foldlM ask db = .ok db' →
        ∀ pSt ∈ stores, ∀ vSt ∈ stores,
          (Classifies db' pSt vSt ↔
            Findable db.pmObjectList (target pSt) ∧ Findable db.pmObjectList (target vSt)) := by
  obtain ⟨db, hnew, hsorted, hne, hdict, hnodes⟩ := new_spec graphs hvalid hpos
  refine ⟨db, hnew, ?_⟩
  intro stores queries db' hids hqueries hrun pSt hp vSt hv
  have hcached : Cached stores db db := .fresh hdict
  rw [classifies_iff_find hsorted hne hnodes hids (foldlM_ask_cached hids hqueries hcached hrun) hp hv,
    find_ok_iff hsorted hne (Int.natCast_nonneg _), find_ok_iff hsorted hne (Int.natCast_nonneg _)]
  rfl

/-- The graph of one load. -/
def oneLoad (address size : Int) : WitcherGraph := .new [⟨0, .load, address, size⟩] []

/-- The graph of three loads apart from each other. -/
def threeLoads : WitcherGraph := .new [⟨0, .load, 0, 8⟩, ⟨1, .load, 16, 8⟩, ⟨2, .load, 32, 8⟩] []

/-- A store to a part of the first object, and one to the last bytes of the middle object and to bytes after it. -/
def insideStore : Store := ⟨⟨0, 0, ""⟩, 4, 4, []⟩

def partialStore : Store := ⟨⟨1, 0, ""⟩, 20, 8, []⟩

/-- The pair of the two stores is classified after a question about the first one. -/
theorem classifies_iff_exact : ∃ db db', new [threeLoads] = .ok db ∧
    [Query.isCriticalStore insideStore].foldlM ask db = .ok db' ∧ Classifies db' insideStore partialStore := by
  have hvalid : ∀ g ∈ [threeLoads], g.Valid := by
    intro g hg
    rw [List.mem_singleton.mp hg]
    exact WitcherGraph.valid_new (by simp [WitcherGraph.Closed]) (by simp)
  obtain ⟨db, hnew, h⟩ := classifies_iff [threeLoads] hvalid ⟨_, List.mem_cons_self, 0, ⟨0, .load, 0, 8⟩, rfl, by decide⟩
  have hlist : db.pmObjectList = [⟨0, 8, 0⟩, ⟨16, 8, 1⟩, ⟨32, 8, 2⟩] := by
    cases hnew
    rfl
  obtain ⟨db', hrun⟩ : ∃ db', [Query.isCriticalStore insideStore].foldlM ask db = .ok db' := by
    cases hnew
    exact ⟨_, rfl⟩
  refine ⟨db, db', hnew, hrun,
    (h [insideStore, partialStore] [.isCriticalStore insideStore] db' (by decide) (by simp [Query.stores])
    hrun _ List.mem_cons_self _ (List.mem_cons_of_mem _ List.mem_cons_self)).mpr ?_⟩
  rw [hlist]
  exact ⟨.inr (.inl ⟨⟨0, 8, 0⟩, List.mem_cons_self, by decide, by decide⟩),
    .inr (.inr ⟨1, by decide, by decide, by decide, by decide, by decide⟩)⟩

/-- A load of the upper half of a word and a store to the whole word: the object is the first of the
list and does not contain the store. -/
theorem classifies_fails_at_first :
    ∃ db, new [oneLoad 20 4] = .ok db ∧ ¬Classifies db ⟨⟨0, 0, ""⟩, 16, 8, []⟩ ⟨⟨0, 0, ""⟩, 16, 8, []⟩ := by
  refine ⟨_, rfl, ?_⟩
  rintro ⟨⟨b, db', hask, _⟩, _⟩
  cases hask

end WitcherBeliefDatabase

end Witcher
