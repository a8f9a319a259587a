import Mathlib.Data.List.Nodup
import Witcher.CandidateQueue
import Witcher.StoreClassification

/-! The generation of crash candidates. The two loops ask the belief database about every pair of stores; the
database looks up their objects, keeps them in its cache, and raises if it cannot look one up. Where it answers,
the candidates are the pairs that violate a belief, each once and in the order of the later store. -/

namespace Witcher

/-! ### The pairs of a transaction -/

namespace BeliefDatabase

variable {belief : BeliefDatabase}

/-- Persisting `pSt` and leaving `vSt` volatile violates a belief. -/
def Violates (belief : BeliefDatabase) (pSt vSt : Store) : Prop :=
  (belief.isCriticalStore pSt = true ∧ belief.isCriticalStore vSt = true) ∨ belief.violateOrderingBelief pSt vSt = true

theorem mem_candidates_iff {preSt sucSt : Store} {x : CrashCandidate} : x ∈ belief.candidates preSt sucSt ↔
    (x = ⟨preSt, sucSt⟩ ∧ belief.Violates preSt sucSt) ∨ (x = ⟨sucSt, preSt⟩ ∧ belief.Violates sucSt preSt) := by
  have hcomm : (belief.isCriticalStore sucSt = true ∧ belief.isCriticalStore preSt = true) ↔
      belief.violateAtomicityBelief preSt sucSt = true := by
    rw [violateAtomicityBelief, Bool.and_eq_true, and_comm]
  rw [candidates, Violates, Violates, and_comm (b := belief.isCriticalStore sucSt = true), hcomm]
  split_ifs with hatomicity hpre hsuc hsuc <;> simp [*]

theorem nodup_candidates {preSt sucSt : Store} (hne : preSt ≠ sucSt) : (belief.candidates preSt sucSt).Nodup := by
  simp only [candidates]
  split_ifs <;> simp [hne]

/-- The loops pair every two stores of which the later one is still to come. -/
theorem mem_candidatesAfter_iff {seen rest : List Store} (hnodup : (seen ++ rest).Nodup) {x : CrashCandidate} :
    x ∈ belief.candidatesAfter seen rest ↔ x.pStore ∈ seen ++ rest ∧ x.vStore ∈ seen ++ rest ∧
      (x.pStore ∈ rest ∨ x.vStore ∈ rest) ∧ x.pStore ≠ x.vStore ∧ belief.Violates x.pStore x.vStore := by
  induction rest generalizing seen with
  | nil => simp [candidatesAfter]
  | cons sucSt rest ih =>
      have hsplit : seen ++ sucSt :: rest = seen ++ [sucSt] ++ rest := by simp
      rw [hsplit] at hnodup
      have hnew : sucSt ∉ seen := by
        intro hmem
        have hfront := (List.nodup_append.mp hnodup).1
        exact (List.nodup_append.mp hfront).2.2 sucSt hmem sucSt (by simp) rfl
      rw [candidatesAfter, List.mem_append, ih hnodup, hsplit]
      simp only [List.mem_flatMap, mem_candidates_iff]
      constructor
      · rintro (⟨preSt, hpre, ⟨rfl, hx⟩ | ⟨rfl, hx⟩⟩ | ⟨hp, hv, hlater, hne, hx⟩)
        · have hne : preSt ≠ sucSt := fun h => hnew (h ▸ hpre)
          exact ⟨by simp [hpre], by simp, by simp, hne, hx⟩
        · have hne : sucSt ≠ preSt := fun h => hnew (h ▸ hpre)
          exact ⟨by simp, by simp [hpre], by simp, hne, hx⟩
        · exact ⟨hp, hv, hlater.imp (List.mem_cons_of_mem _) (List.mem_cons_of_mem _), hne, hx⟩
      · rintro ⟨hp, hv, hlater, hne, hx⟩
        by_cases hrest : x.pStore ∈ rest ∨ x.vStore ∈ rest
        · exact .inr ⟨hp, hv, hrest, hne, hx⟩
        · -- neither store comes later, so one of them is this one and the other one was seen
          rw [not_or] at hrest
          have hp' := (List.mem_append.mp hp).resolve_right hrest.1
          have hv' := (List.mem_append.mp hv).resolve_right hrest.2
          rw [List.mem_append, List.mem_singleton] at hp' hv'
          left
          rcases hlater with hlater | hlater
          · have hsuc := (List.mem_cons.mp hlater).resolve_right hrest.1
            have hseen := hv'.resolve_right fun h => hne (hsuc.trans h.symm)
            refine ⟨x.vStore, hseen, .inr ⟨?_, hsuc ▸ hx⟩⟩
            rw [← hsuc]
          · have hsuc := (List.mem_cons.mp hlater).resolve_right hrest.2
            have hseen := hp'.resolve_right fun h => hne (h.trans hsuc.symm)
            refine ⟨x.pStore, hseen, .inl ⟨?_, hsuc ▸ hx⟩⟩
            rw [← hsuc]

theorem nodup_candidatesAfter {seen rest : List Store} (hnodup : (seen ++ rest).Nodup) :
    (belief.candidatesAfter seen rest).Nodup := by
  induction rest generalizing seen with
  | nil => exact List.nodup_nil
  | cons sucSt rest ih =>
      rw [List.append_cons] at hnodup
      obtain ⟨hseen, -, hcross⟩ := List.nodup_append.mp hnodup
      have hne : ∀ preSt ∈ seen, preSt ≠ sucSt :=
        fun preSt hpre => (List.nodup_append.mp hseen).2.2 preSt hpre sucSt (by simp)
      rw [candidatesAfter, List.nodup_append]
      refine ⟨?_, ih hnodup, ?_⟩
      · rw [List.nodup_flatMap]
        refine ⟨fun preSt hpre => nodup_candidates (hne preSt hpre), ?_⟩
        refine (List.nodup_append.mp hseen).1.imp_of_mem ?_
        intro preSt preSt' hpre hpre' hdistinct
        show List.Disjoint _ _
        rw [List.disjoint_left]
        intro x hx hx'
        rw [mem_candidates_iff] at hx hx'
        have := hne preSt hpre
        have := hne preSt' hpre'
        rcases hx with ⟨rfl, -⟩ | ⟨rfl, -⟩ <;> rcases hx' with ⟨h, -⟩ | ⟨h, -⟩ <;> cases h <;> contradiction
      · -- a later round has a later store
        intro x hx y hy
        rintro rfl
        obtain ⟨preSt, hpre, hx⟩ := List.mem_flatMap.mp hx
        obtain ⟨-, -, hlater, -⟩ := (mem_candidatesAfter_iff hnodup).mp hy
        have hpair : x.pStore ∈ seen ++ [sucSt] ∧ x.vStore ∈ seen ++ [sucSt] := by
          rcases mem_candidates_iff.mp hx with ⟨rfl, -⟩ | ⟨rfl, -⟩ <;> simp [hpre]
        rcases hlater with hlater | hlater
        · exact hcross _ hpair.1 _ hlater rfl
        · exact hcross _ hpair.2 _ hlater rfl

end BeliefDatabase

/-! ### The two loops on the database -/

namespace WitcherBeliefDatabase

open PMObjectList

/-- The second store is asked about only if the first one is critical. -/
def violateAtomicityBelief (db : WitcherBeliefDatabase) (preSt sucSt : Store) :
    Except ReplayError (Bool × WitcherBeliefDatabase) := do
  let (critical, db) ← db.isCriticalStore preSt
  if critical then db.isCriticalStore sucSt else .ok (false, db)

/-- The body of the loops. A pair that violates atomicity is not checked for ordering. -/
def addCandidates (sucSt : Store) (s : List CrashCandidate × WitcherBeliefDatabase) (preSt : Store) :
    Except ReplayError (List CrashCandidate × WitcherBeliefDatabase) := do
  let (candidates, db) := s
  let (atomicity, db) ← db.violateAtomicityBelief preSt sucSt
  if atomicity then .ok (candidates ++ [⟨preSt, sucSt⟩, ⟨sucSt, preSt⟩], db)
  else
    let (ordering, db) ← db.violateOrderingBelief preSt sucSt
    let candidates := if ordering then candidates ++ [⟨preSt, sucSt⟩] else candidates
    let (ordering, db) ← db.violateOrderingBelief sucSt preSt
    let candidates := if ordering then candidates ++ [⟨sucSt, preSt⟩] else candidates
    .ok (candidates, db)

/-- The outer loop from the store after `seen` on; the inner loop goes through `seen`. -/
def candidatesAfter (seen : List Store) :
    List Store → List CrashCandidate × WitcherBeliefDatabase → Except ReplayError (List CrashCandidate × WitcherBeliefDatabase)
  | [], s => .ok s
  | sucSt :: rest, s => do
      let s ← seen.foldlM (addCandidates sucSt) s
      candidatesAfter (seen ++ [sucSt]) rest s

def getCrashCandidatesFromTx (db : WitcherBeliefDatabase) (stores : List Store) :
    Except ReplayError (List CrashCandidate × WitcherBeliefDatabase) :=
  if stores.length > 100000 then .ok ([], db) else candidatesAfter [] stores ([], db)

/-! ### The answers of the database -/

/-- The object of a store, if the lookup finds one. -/
def objectOf (db : WitcherBeliefDatabase) (st : Store) : Option PMObject :=
  match find db.pmObjectList st.address st.size with
  | .ok o => o
  | .error _ => none

/-- What the database answers where its lookups succeed. -/
def answers (db : WitcherBeliefDatabase) : BeliefDatabase where
  isCriticalStore st := (db.objectOf st).any fun o => o.id ∈ db.beliefs.criticalReadSet
  violateOrderingBelief pSt vSt := (db.objectOf pSt).any fun p =>
    (db.objectOf vSt).any fun v => (v.id, p.id) ∈ db.beliefs.beliefGraph.edges.keys

theorem objectOf_eq {db : WitcherBeliefDatabase} {st : Store} {r : Option PMObject}
    (h : find db.pmObjectList st.address st.size = .ok r) : db.objectOf st = r := by
  rw [objectOf, h]

/-- The lookup of the store does not raise. -/
def Looked (db : WitcherBeliefDatabase) (st : Store) : Prop := ∃ r, find db.pmObjectList st.address st.size = .ok r

/-- The objects are nodes of the belief graph. -/
structure WellFormed (db : WitcherBeliefDatabase) : Prop where
  sorted : Sorted db.pmObjectList
  nodes : ∀ o ∈ db.pmObjectList, db.beliefs.beliefGraph.hasNode o.id

theorem length_pos_of_find {list : List PMObject} {address size : Int} {r : Option PMObject}
    (h : find list address size = .ok r) : 0 < list.length := by
  rw [find] at h
  obtain ⟨_, hassert, _⟩ := Loops.bind_ok h
  exact of_decide_eq_true (assert_ok hassert)

theorem append_singleton_subset {seen stores : List Store} {st : Store} (hseen : seen ⊆ stores) (hst : st ∈ stores) :
    seen ++ [st] ⊆ stores := by
  rw [List.append_subset, List.cons_subset]
  exact ⟨hseen, hst, List.nil_subset stores⟩

section Answers

variable {stores : List Store} {db₀ db : WitcherBeliefDatabase}

theorem isCriticalStore_answers (hids : (stores.map (·.id)).Nodup) (h : Cached stores db₀ db) {st : Store} (hst : st ∈ stores)
    (hlooked : db₀.Looked st) :
    ∃ db', db.isCriticalStore st = .ok (db₀.answers.isCriticalStore st, db') ∧ Cached stores db₀ db' := by
  obtain ⟨r, hfind⟩ := hlooked
  obtain ⟨db', hget, hcached⟩ := getPmObject_eq h hst hfind hids
  refine ⟨db', ?_, hcached⟩
  rw [isCriticalStore, hget, Loops.ok_bind, answers]
  simp only [objectOf_eq hfind]
  cases r with
  | none => rfl
  | some o => simp only [hcached.beliefs, Option.any_some]

theorem violateOrderingBelief_answers (hdb : db₀.WellFormed) (hids : (stores.map (·.id)).Nodup) (h : Cached stores db₀ db)
    {pSt vSt : Store} (hp : pSt ∈ stores) (hv : vSt ∈ stores) (hlookedp : db₀.Looked pSt) (hlookedv : db₀.Looked vSt) :
    ∃ db', db.violateOrderingBelief pSt vSt = .ok (db₀.answers.violateOrderingBelief pSt vSt, db') ∧ Cached stores db₀ db' := by
  obtain ⟨rp, hfindp⟩ := hlookedp
  obtain ⟨rv, hfindv⟩ := hlookedv
  obtain ⟨db₁, hgetp, hcached₁⟩ := getPmObject_eq h hp hfindp hids
  obtain ⟨db₂, hgetv, hcached₂⟩ := getPmObject_eq hcached₁ hv hfindv hids
  refine ⟨db₂, ?_, hcached₂⟩
  rw [violateOrderingBelief, hgetp, Loops.ok_bind]
  simp only [hgetv, Loops.ok_bind, answers, objectOf_eq hfindp, objectOf_eq hfindv]
  cases rp with
  | none => rfl
  | some p =>
      cases rv with
      | none => rfl
      | some v =>
          have hnode := hdb.nodes v ((find_sound hdb.sorted (length_pos_of_find hfindv) hfindv).1 v rfl).1
          simp only [hcached₂.beliefs, if_pos hnode, Option.any_some, DiGraph.mem_successors]

theorem addCandidates_answers (hdb : db₀.WellFormed) (hids : (stores.map (·.id)).Nodup) (h : Cached stores db₀ db)
    {preSt sucSt : Store} (hpre : preSt ∈ stores) (hsuc : sucSt ∈ stores) (hlookedPre : db₀.Looked preSt)
    (hlookedSuc : db₀.Looked sucSt) (candidates : List CrashCandidate) :
    ∃ db', addCandidates sucSt (candidates, db) preSt = .ok (candidates ++ db₀.answers.candidates preSt sucSt, db') ∧
      Cached stores db₀ db' := by
  have hatomicity : ∃ db', db.violateAtomicityBelief preSt sucSt = .ok (db₀.answers.violateAtomicityBelief preSt sucSt, db') ∧
      Cached stores db₀ db' := by
    obtain ⟨db₁, hask₁, hcached₁⟩ := isCriticalStore_answers hids h hpre hlookedPre
    rw [violateAtomicityBelief, hask₁, Loops.ok_bind, BeliefDatabase.violateAtomicityBelief]
    cases db₀.answers.isCriticalStore preSt with
    | false => exact ⟨db₁, rfl, hcached₁⟩
    | true => exact isCriticalStore_answers hids hcached₁ hsuc hlookedSuc
  obtain ⟨db₁, hask₁, hcached₁⟩ := hatomicity
  obtain ⟨db₂, hask₂, hcached₂⟩ := violateOrderingBelief_answers hdb hids hcached₁ hpre hsuc hlookedPre hlookedSuc
  obtain ⟨db₃, hask₃, hcached₃⟩ := violateOrderingBelief_answers hdb hids hcached₂ hsuc hpre hlookedSuc hlookedPre
  simp only [addCandidates, hask₁, Loops.ok_bind, BeliefDatabase.candidates]
  cases db₀.answers.violateAtomicityBelief preSt sucSt with
  | true => exact ⟨db₁, rfl, hcached₁⟩
  | false =>
      simp only [Bool.false_eq_true, if_false, hask₂, hask₃, Loops.ok_bind]
      refine ⟨db₃, ?_, hcached₃⟩
      cases db₀.answers.violateOrderingBelief preSt sucSt <;> cases db₀.answers.violateOrderingBelief sucSt preSt <;> simp

/-- The loops return if every lookup does, and then with the candidates of the answers. -/
theorem candidatesAfter_answers (hdb : db₀.WellFormed) (hids : (stores.map (·.id)).Nodup)
    (hlooked : ∀ st ∈ stores, db₀.Looked st) {seen rest : List Store} (hseen : seen ⊆ stores) (hrest : rest ⊆ stores)
    (h : Cached stores db₀ db) (candidates : List CrashCandidate) :
    ∃ db', candidatesAfter seen rest (candidates, db) = .ok (candidates ++ db₀.answers.candidatesAfter seen rest, db') ∧
      Cached stores db₀ db' := by
  induction rest generalizing seen candidates db with
  | nil => exact ⟨db, by simp [candidatesAfter, BeliefDatabase.candidatesAfter], h⟩
  | cons sucSt rest ih =>
      have hsuc := hrest List.mem_cons_self
      have hround : ∃ s, seen.foldlM (addCandidates sucSt) (candidates, db) = .ok s ∧
          s.1 = candidates ++ seen.flatMap (fun preSt => db₀.answers.candidates preSt sucSt) ∧ Cached stores db₀ s.2 := by
        apply Loops.foldlM_induction (motive := fun done (s : List CrashCandidate × WitcherBeliefDatabase) =>
          s.1 = candidates ++ done.flatMap (fun preSt => db₀.answers.candidates preSt sucSt) ∧ Cached stores db₀ s.2)
        · exact ⟨by simp, h⟩
        · rintro done preSt back ⟨cs, db⟩ hsplit ⟨hcs, hcached⟩
          have hpre : preSt ∈ stores := hseen (by rw [hsplit]; simp)
          obtain ⟨db', hstep, hcached'⟩ := addCandidates_answers hdb hids hcached hpre hsuc (hlooked _ hpre) (hlooked _ hsuc) cs
          refine ⟨_, hstep, ?_, hcached'⟩
          rw [List.flatMap_append, List.flatMap_singleton, ← List.append_assoc, ← hcs]
      obtain ⟨⟨cs, db₁⟩, hloop, hcs, hcached⟩ := hround
      have hseen' : seen ++ [sucSt] ⊆ stores := append_singleton_subset hseen hsuc
      rw [candidatesAfter, hloop, Loops.ok_bind]
      obtain ⟨db', hrun, hcached'⟩ := ih hseen' (fun st hst => hrest (List.mem_cons_of_mem _ hst)) hcached _
      refine ⟨db', ?_, hcached'⟩
      have hcs : cs = candidates ++ seen.flatMap (fun preSt => db₀.answers.candidates preSt sucSt) := hcs
      rw [hrun, hcs, BeliefDatabase.candidatesAfter, List.append_assoc]

/-- The body of the loops looks up both stores. -/
theorem addCandidates_looked (hids : (stores.map (·.id)).Nodup) (h : Cached stores db₀ db) {preSt sucSt : Store}
    (hpre : preSt ∈ stores) (hsuc : sucSt ∈ stores) {candidates : List CrashCandidate}
    {s : List CrashCandidate × WitcherBeliefDatabase} (hrun : addCandidates sucSt (candidates, db) preSt = .ok s) :
    db₀.Looked preSt ∧ db₀.Looked sucSt ∧ Cached stores db₀ s.2 := by
  rw [addCandidates] at hrun
  obtain ⟨⟨atomicity, db₁⟩, hatomicity, hrun⟩ := Loops.bind_ok hrun
  rw [violateAtomicityBelief] at hatomicity
  obtain ⟨⟨critical, db₂⟩, hcritical, hatomicity⟩ := Loops.bind_ok hatomicity
  obtain ⟨hlookedPre, hcached₂⟩ := isCriticalStore_ok h hpre hids hcritical
  have hcached₁ : Cached stores db₀ db₁ := by
    cases critical with
    | false =>
        cases hatomicity
        exact hcached₂
    | true => exact (isCriticalStore_ok hcached₂ hsuc hids hatomicity).2
  cases atomicity with
  | true =>
      cases critical with
      | false => cases hatomicity
      | true =>
          cases hrun
          exact ⟨hlookedPre, isCriticalStore_ok hcached₂ hsuc hids hatomicity⟩
  | false =>
      obtain ⟨⟨_, db₃⟩, hordering, hrun⟩ := Loops.bind_ok hrun
      obtain ⟨-, hlookedSuc, hcached₃⟩ := violateOrderingBelief_ok hcached₁ hpre hsuc hids hordering
      obtain ⟨⟨_, db₄⟩, hordering', hrun⟩ := Loops.bind_ok hrun
      obtain ⟨-, -, hcached₄⟩ := violateOrderingBelief_ok hcached₃ hsuc hpre hids hordering'
      cases hrun
      exact ⟨hlookedPre, hlookedSuc, hcached₄⟩

/-- Loops that return have looked up every store they paired. -/
theorem candidatesAfter_looked (hids : (stores.map (·.id)).Nodup) {seen rest : List Store} (hseen : seen ⊆ stores)
    (hrest : rest ⊆ stores) (h : Cached stores db₀ db) {candidates : List CrashCandidate}
    {s : List CrashCandidate × WitcherBeliefDatabase} (hrun : candidatesAfter seen rest (candidates, db) = .ok s)
    (hseenNe : seen ≠ []) (hrestNe : rest ≠ []) : ∀ st ∈ seen ++ rest, db₀.Looked st := by
  induction rest generalizing seen candidates db with
  | nil => exact absurd rfl hrestNe
  | cons sucSt rest ih =>
      have hsuc := hrest List.mem_cons_self
      rw [candidatesAfter] at hrun
      obtain ⟨⟨cs, db₁⟩, hround, hrun⟩ := Loops.bind_ok hrun
      obtain ⟨hcached, hlooked⟩ := Loops.foldlM_ok_induction (motive := fun done s =>
        Cached stores db₀ s.2 ∧ ∀ preSt ∈ done, db₀.Looked preSt ∧ db₀.Looked sucSt) hround ⟨h, by simp⟩ (by
          rintro done preSt back ⟨cs, db⟩ s' hsplit ⟨hcached, hdone⟩ hstep
          have hpre : preSt ∈ seen := by simp [hsplit]
          obtain ⟨hlookedPre, hlookedSuc, hcached'⟩ := addCandidates_looked hids hcached (hseen hpre) hsuc hstep
          refine ⟨hcached', ?_⟩
          intro st hst
          rcases List.mem_append.mp hst with hst | hst
          · exact hdone st hst
          · rw [List.mem_singleton.mp hst]
            exact ⟨hlookedPre, hlookedSuc⟩)
      have hlookedSuc : db₀.Looked sucSt := by
        obtain ⟨preSt, hpre⟩ := List.exists_mem_of_ne_nil seen hseenNe
        exact (hlooked preSt hpre).2
      have hseen' : seen ++ [sucSt] ⊆ stores := append_singleton_subset hseen hsuc
      by_cases hlast : rest = []
      · intro st hst
        rw [hlast] at hst
        rcases List.mem_append.mp hst with hst | hst
        · exact (hlooked st hst).1
        · rw [List.mem_singleton.mp hst]
          exact hlookedSuc
      · have hall := ih hseen' (fun st hst => hrest (List.mem_cons_of_mem _ hst)) hcached hrun (by simp) hlast
        rwa [List.append_cons]

end Answers

/-! ### Exactness -/

/-- Both objects are critical, or `vSt`'s object is believed to be persisted before `pSt`'s. -/
def ViolatesBelief (db : WitcherBeliefDatabase) (pSt vSt : Store) : Prop :=
  ∃ p v, db.objectOf pSt = some p ∧ db.objectOf vSt = some v ∧
    ((p.id ∈ db.beliefs.criticalReadSet ∧ v.id ∈ db.beliefs.criticalReadSet) ∨ (v.id, p.id) ∈ db.beliefs.beliefGraph.edges.keys)

/-- The generation returns, every pair of distinct stores that violates a belief occurs once and no other pair
occurs, and the later store never goes back. -/
def ExactCandidates (db : WitcherBeliefDatabase) (stores : List Store) : Prop :=
  ∃ candidates db', db.getCrashCandidatesFromTx stores = .ok (candidates, db') ∧
    (∀ x ∈ candidates, x.pStore ∈ stores ∧ x.vStore ∈ stores ∧ x.pStore ≠ x.vStore) ∧
    (∀ pSt ∈ stores, ∀ vSt ∈ stores, pSt ≠ vSt →
      (db.ViolatesBelief pSt vSt → candidates.count ⟨pSt, vSt⟩ = 1) ∧ (¬db.ViolatesBelief pSt vSt → ⟨pSt, vSt⟩ ∉ candidates)) ∧
    candidates.Pairwise fun x y => max x.pStore.id x.vStore.id ≤ max y.pStore.id y.vStore.id

theorem violates_answers_iff (db : WitcherBeliefDatabase) (pSt vSt : Store) :
    db.answers.Violates pSt vSt ↔ db.ViolatesBelief pSt vSt := by
  simp only [BeliefDatabase.Violates, answers, Option.any_eq_true, decide_eq_true_eq, ViolatesBelief]
  constructor
  · rintro (⟨⟨p, hp, hcritical⟩, v, hv, hcritical'⟩ | ⟨p, hp, v, hv, hedge⟩)
    · exact ⟨p, v, hp, hv, .inl ⟨hcritical, hcritical'⟩⟩
    · exact ⟨p, v, hp, hv, .inr hedge⟩
  · rintro ⟨p, v, hp, hv, ⟨hcritical, hcritical'⟩ | hedge⟩
    · exact .inl ⟨⟨p, hp, hcritical⟩, v, hv, hcritical'⟩
    · exact .inr ⟨p, hp, v, hv, hedge⟩

section Exact

variable {db : WitcherBeliefDatabase} {stores : List Store}

/-- A transaction of one store asks nothing, and one of more stores asks about all of them. -/
theorem getCrashCandidatesFromTx_ok_iff (hdb : db.WellFormed) (hids : (stores.map (·.id)).Nodup) (hlen : stores.length ≤ 100000)
    (hcache : Cached stores db db) :
    (∃ r, db.getCrashCandidatesFromTx stores = .ok r) ↔ stores.length ≤ 1 ∨ ∀ st ∈ stores, db.Looked st := by
  rw [getCrashCandidatesFromTx, if_neg (Nat.not_lt.mpr hlen)]
  constructor
  · rintro ⟨r, hrun⟩
    rcases stores with _ | ⟨first, rest⟩
    · exact .inl (Nat.zero_le 1)
    · by_cases hrest : rest = []
      · rw [hrest]
        exact .inl (le_refl 1)
      · right
        exact candidatesAfter_looked hids (List.cons_subset.mpr ⟨List.mem_cons_self, List.nil_subset _⟩)
          (List.subset_cons_self first rest) hcache hrun (List.cons_ne_nil first []) hrest
  · rintro (hshort | hlooked)
    · rcases stores with _ | ⟨first, _ | ⟨second, rest⟩⟩
      · exact ⟨_, rfl⟩
      · exact ⟨_, rfl⟩
      · simp at hshort
    · obtain ⟨db', hrun, -⟩ := candidatesAfter_answers hdb hids hlooked (List.nil_subset stores)
        (List.Subset.refl stores) hcache []
      exact ⟨_, hrun⟩

/-- What the generation returns. -/
theorem getCrashCandidatesFromTx_answers (hdb : db.WellFormed) (hids : (stores.map (·.id)).Nodup)
    (hlen : stores.length ≤ 100000) (hcache : Cached stores db db) (hok : ∃ r, db.getCrashCandidatesFromTx stores = .ok r) :
    ∃ db', db.getCrashCandidatesFromTx stores = .ok (db.answers.candidatesAfter [] stores, db') := by
  rcases (getCrashCandidatesFromTx_ok_iff hdb hids hlen hcache).mp hok with hshort | hlooked
  · rcases stores with _ | ⟨first, _ | ⟨second, rest⟩⟩
    · exact ⟨db, rfl⟩
    · exact ⟨db, rfl⟩
    · simp at hshort
  · obtain ⟨db', hrun, -⟩ := candidatesAfter_answers hdb hids hlooked (List.nil_subset stores)
      (List.Subset.refl stores) hcache []
    rw [getCrashCandidatesFromTx, if_neg (Nat.not_lt.mpr hlen)]
    exact ⟨db', hrun⟩

/-- Looking up all stores of a transaction, in terms of the objects. -/
theorem looked_iff_findable (hdb : db.WellFormed) : stores.length ≤ 1 ∨ (∀ st ∈ stores, db.Looked st) ↔
    stores.length ≤ 1 ∨ (0 < db.pmObjectList.length ∧ ∀ st ∈ stores, Findable db.pmObjectList (target st)) := by
  constructor
  · rintro (hshort | hall)
    · exact .inl hshort
    · by_cases hempty : stores = []
      · rw [hempty]
        exact .inl (Nat.zero_le 1)
      · obtain ⟨first, hfirst⟩ := List.exists_mem_of_ne_nil stores hempty
        obtain ⟨r, hfind⟩ := hall first hfirst
        have hne := length_pos_of_find hfind
        exact .inr ⟨hne, fun st hst => (find_ok_iff hdb.sorted hne (Int.natCast_nonneg _)).mp (hall st hst)⟩
  · rintro (hshort | ⟨hne, hall⟩)
    · exact .inl hshort
    · exact .inr fun st hst => (find_ok_iff hdb.sorted hne (Int.natCast_nonneg _)).mpr (hall st hst)

theorem mem_answers_iff (db : WitcherBeliefDatabase) (hnodup : stores.Nodup) (x : CrashCandidate) :
    x ∈ db.answers.candidatesAfter [] stores ↔
      x.pStore ∈ stores ∧ x.vStore ∈ stores ∧ x.pStore ≠ x.vStore ∧ db.ViolatesBelief x.pStore x.vStore := by
  rw [BeliefDatabase.mem_candidatesAfter_iff (show ([] ++ stores).Nodup from hnodup), violates_answers_iff, List.nil_append]
  constructor
  · rintro ⟨hp, hv, -, hne, hx⟩
    exact ⟨hp, hv, hne, hx⟩
  · rintro ⟨hp, hv, hne, hx⟩
    exact ⟨hp, hv, .inl hp, hne, hx⟩

/-- The candidates are exact if the transaction has at most one store, or if there are objects and each store
overlaps none of them, lies inside one, or overlaps one that is neither the first nor the last; in all other
cases the generation raises. -/
theorem exactCandidates_iff (hdb : db.WellFormed) (hids : (stores.map (·.id)).Pairwise (· < ·)) (hlen : stores.length ≤ 100000)
    (hcache : Cached stores db db) :
    db.ExactCandidates stores ↔
      stores.length ≤ 1 ∨ (0 < db.pmObjectList.length ∧ ∀ st ∈ stores, Findable db.pmObjectList (target st)) := by
  have hnodupIds : (stores.map (·.id)).Nodup := hids.imp Nat.ne_of_lt
  have hnodup : stores.Nodup := List.Nodup.of_map _ hnodupIds
  rw [← looked_iff_findable hdb, ← getCrashCandidatesFromTx_ok_iff hdb hnodupIds hlen hcache]
  constructor
  · rintro ⟨candidates, db', hrun, -⟩
    exact ⟨_, hrun⟩
  · intro hok
    obtain ⟨db', hrun⟩ := getCrashCandidatesFromTx_answers hdb hnodupIds hlen hcache hok
    refine ⟨_, db', hrun, ?_, ?_, ?_⟩
    · intro x hx
      obtain ⟨hp, hv, hne, -⟩ := (mem_answers_iff db hnodup x).mp hx
      exact ⟨hp, hv, hne⟩
    · intro pSt hp vSt hv hne
      constructor
      · intro hviolates
        apply List.count_eq_one_of_mem (BeliefDatabase.nodup_candidatesAfter (show ([] ++ stores).Nodup from hnodup))
        exact (mem_answers_iff db hnodup _).mpr ⟨hp, hv, hne, hviolates⟩
      · intro hnot hx
        exact hnot ((mem_answers_iff db hnodup _).mp hx).2.2.2
    · exact (db.answers.candidatesAfter_spec [] stores hids).1.sorted

end Exact

/-- A store to `address`, the one with the given number in its transaction. -/
def storeAt (id address : Nat) : Store := ⟨⟨id, 0, ""⟩, address, 8, []⟩

/-- A load of the upper half of a word and a store to the whole word: the object is the first of the list and does
not contain the store, so no candidate of the transaction is returned. -/
theorem not_exactCandidates_half_word :
    ∃ db, new [oneLoad 20 4] = .ok db ∧ ¬db.ExactCandidates [storeAt 0 16, storeAt 1 64] := by
  refine ⟨_, rfl, ?_⟩
  rintro ⟨candidates, db', hrun, -⟩
  cases hrun

/-- A store that depends on a load. -/
def loadThenStore : WitcherGraph := .new [⟨0, .load, 16, 8⟩, ⟨1, .store, 64, 8⟩] [⟨.dataDep, 1, 0⟩]

/-- Two stores to what is loaded and one to what is stored: the first two are critical, and the last one is to be
persisted after each of them. -/
theorem exactCandidates_iff_three : ∃ db, new [loadThenStore] = .ok db ∧
    db.ExactCandidates [storeAt 0 16, storeAt 1 64, storeAt 2 16] := by
  have hvalid : ∀ g ∈ [loadThenStore], g.Valid := by
    rw [List.forall_mem_singleton]
    exact WitcherGraph.valid_new (by unfold WitcherGraph.Closed; decide) (by decide)
  obtain ⟨db, hnew, hsorted, hne, hdict, hnodes⟩ := new_spec [loadThenStore] hvalid
    ⟨_, List.mem_cons_self, 0, ⟨0, .load, 16, 8⟩, rfl, by decide⟩
  have hlist : db.pmObjectList = [⟨16, 8, 0⟩, ⟨64, 8, 1⟩] := by
    cases hnew
    rfl
  refine ⟨db, hnew, (exactCandidates_iff ⟨hsorted, hnodes⟩ (by decide) (by decide) (.fresh hdict)).mpr (.inr ⟨hne, ?_⟩)⟩
  rw [hlist]
  intro st hst
  right
  left
  simp only [List.mem_cons, List.not_mem_nil, or_false] at hst
  rcases hst with rfl | rfl | rfl
  · exact ⟨⟨16, 8, 0⟩, by simp, by decide, by decide⟩
  · exact ⟨⟨64, 8, 1⟩, by simp, by decide, by decide⟩
  · exact ⟨⟨16, 8, 0⟩, by simp, by decide, by decide⟩

end WitcherBeliefDatabase

end Witcher
