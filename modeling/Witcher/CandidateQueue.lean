import Witcher.CrashManager

/-! The candidate queue. Candidates are popped while they lie before the current fence and put back
as long as their `vStore` is volatile, so at every fence the queue consists of the candidates seen
before whose `vStore` is still volatile and of all candidates not reached yet. That is enough to
find the same plans as a pass over the whole original list. -/

namespace Witcher

open Bytes Persistency

/-! ### The candidates of a transaction -/

/-- A list of candidates over the given stores, ordered by the later of the two ids. -/
structure TxCandidates (stores : List Store) (candidates : List CrashCandidate) : Prop where
  pStore : ∀ x ∈ candidates, x.pStore ∈ stores
  vStore : ∀ x ∈ candidates, x.vStore ∈ stores
  ne : ∀ x ∈ candidates, x.pStore.id ≠ x.vStore.id
  sorted : candidates.Pairwise fun x y => x.last ≤ y.last

theorem TxCandidates.nil (stores : List Store) : TxCandidates stores [] :=
  ⟨by simp, by simp, by simp, List.Pairwise.nil⟩

/-- The candidates of a pair are the pair in one or both orders. -/
theorem BeliefDatabase.mem_candidates {belief : BeliefDatabase} {preSt sucSt : Store} {x : CrashCandidate}
    (h : x ∈ belief.candidates preSt sucSt) : x = ⟨preSt, sucSt⟩ ∨ x = ⟨sucSt, preSt⟩ := by
  rw [BeliefDatabase.candidates] at h
  split_ifs at h <;> simp at h <;> tauto

/-- The two loops go through the stores in order, so the later store of a candidate never goes back. -/
theorem BeliefDatabase.candidatesAfter_spec (belief : BeliefDatabase) (seen rest : List Store)
    (hids : ((seen ++ rest).map (·.id)).Pairwise (· < ·)) :
    TxCandidates (seen ++ rest) (belief.candidatesAfter seen rest) ∧
      ∀ x ∈ belief.candidatesAfter seen rest, ∃ st ∈ rest, x.last = st.id := by
  induction rest generalizing seen with
  | nil => exact ⟨TxCandidates.nil _, by simp [BeliefDatabase.candidatesAfter]⟩
  | cons sucSt rest ih =>
      have hassoc : seen ++ [sucSt] ++ rest = seen ++ sucSt :: rest := by simp
      obtain ⟨htail, hlast⟩ := ih (seen ++ [sucSt]) (by rw [hassoc]; exact hids)
      rw [hassoc] at htail
      rw [List.map_append, List.map_cons, List.pairwise_append, List.pairwise_cons] at hids
      obtain ⟨-, ⟨hsuc, -⟩, hcross⟩ := hids
      -- every candidate of this round pairs an earlier store with `sucSt`
      have hround : ∀ x ∈ seen.flatMap fun preSt => belief.candidates preSt sucSt,
          ∃ preSt ∈ seen, preSt.id < sucSt.id ∧ (x = ⟨preSt, sucSt⟩ ∨ x = ⟨sucSt, preSt⟩) := by
        intro x hx
        obtain ⟨preSt, hpre, hx⟩ := List.mem_flatMap.mp hx
        have hlt := hcross preSt.id (List.mem_map_of_mem hpre) sucSt.id List.mem_cons_self
        exact ⟨preSt, hpre, hlt, mem_candidates hx⟩
      have hroundLast : ∀ x ∈ seen.flatMap fun preSt => belief.candidates preSt sucSt, x.last = sucSt.id := by
        intro x hx
        obtain ⟨preSt, _, hlt, rfl | rfl⟩ := hround x hx <;> simp only [CrashCandidate.last] <;> omega
      have hmem : ∀ x ∈ belief.candidatesAfter seen (sucSt :: rest),
          x ∈ (seen.flatMap fun preSt => belief.candidates preSt sucSt) ∨
            x ∈ belief.candidatesAfter (seen ++ [sucSt]) rest := by
        intro x hx
        exact List.mem_append.mp hx
      refine ⟨⟨?_, ?_, ?_, ?_⟩, ?_⟩
      · intro x hx
        rcases hmem x hx with hx | hx
        · obtain ⟨preSt, hpre, _, rfl | rfl⟩ := hround x hx <;> simp [hpre]
        · exact htail.pStore x hx
      · intro x hx
        rcases hmem x hx with hx | hx
        · obtain ⟨preSt, hpre, _, rfl | rfl⟩ := hround x hx <;> simp [hpre]
        · exact htail.vStore x hx
      · intro x hx
        rcases hmem x hx with hx | hx
        · obtain ⟨preSt, _, hlt, rfl | rfl⟩ := hround x hx <;> simp only <;> omega
        · exact htail.ne x hx
      · rw [BeliefDatabase.candidatesAfter, List.pairwise_append]
        refine ⟨?_, htail.sorted, ?_⟩
        · refine List.pairwise_of_forall_mem_list ?_
          intro x hx y hy
          rw [hroundLast x hx, hroundLast y hy]
        · intro x hx y hy
          obtain ⟨st, hst, hy⟩ := hlast y hy
          rw [hroundLast x hx, hy]
          exact (hsuc st.id (List.mem_map_of_mem hst)).le
      · intro x hx
        rcases hmem x hx with hx | hx
        · exact ⟨sucSt, List.mem_cons_self, hroundLast x hx⟩
        · obtain ⟨st, hst, hlast⟩ := hlast x hx
          exact ⟨st, List.mem_cons_of_mem _ hst, hlast⟩

/-- The candidates the managers compute are ordered as `verify_crash_candidates` expects. -/
theorem BeliefDatabase.getCrashCandidatesFromTx_spec (belief : BeliefDatabase) (stores : List Store)
    (hids : (stores.map (·.id)).Pairwise (· < ·)) :
    TxCandidates stores (belief.getCrashCandidatesFromTx stores) := by
  rw [BeliefDatabase.getCrashCandidatesFromTx]
  split_ifs
  · exact TxCandidates.nil _
  · exact (belief.candidatesAfter_spec [] stores hids).1

/-! ### Plans -/

/-- The plan that candidate `x` calls for at a fence, judged on its own. -/
def CrashCandidate.Plans (isFenced : Store → Bool) (fenceOp : Op) (x : CrashCandidate) (plan : Op) : Prop :=
  (isFenced x.pStore = false ∧ isFenced x.vStore = false ∧
    (x.pStore.id < x.vStore.id ∨ x.pStore.line ≠ x.vStore.line) ∧ plan = .store x.pStore) ∨
  (isFenced x.pStore = true ∧ isFenced x.vStore = false ∧ plan = fenceOp)

theorem mem_addPlan (isFenced : Store → Bool) (fenceOp : Op) (plans : List Op) (x : CrashCandidate)
    (hboth : isFenced x.pStore = true → isFenced x.vStore = false) (plan : Op) :
    plan ∈ addPlan isFenced fenceOp plans x ↔ plan ∈ plans ∨ x.Plans isFenced fenceOp plan := by
  simp only [addPlan, CrashCandidate.Plans, Store.line]
  cases hp : isFenced x.pStore with
  | true =>
      rw [hboth hp]
      simp [or_comm]
  | false =>
      cases hv : isFenced x.vStore with
      | true => simp
      | false =>
          simp only [Bool.not_false, Bool.and_self, if_true, Bool.false_eq_true, if_false]
          split_ifs with hlt hline <;> simp [*, or_comm]

theorem nodup_addPlan (isFenced : Store → Bool) (fenceOp : Op) (plans : List Op) (x : CrashCandidate)
    (hplans : plans.Nodup) : (addPlan isFenced fenceOp plans x).Nodup := by
  simp only [addPlan]
  split_ifs <;> simp [List.Nodup.insert, hplans]

/-- A pass over the original list: the plans of every candidate before the fence whose `vStore` is
volatile. -/
def naivePlans (isFenced : Store → Bool) (fenceIndex : Nat) (fenceOp : Op) (candidates : List CrashCandidate) :
    List Op :=
  (candidates.filter fun x => x.last < fenceIndex && !isFenced x.vStore).foldl (addPlan isFenced fenceOp) []

theorem mem_foldl_addPlan (isFenced : Store → Bool) (fenceOp : Op) (l : List CrashCandidate) (plans : List Op)
    (hl : ∀ x ∈ l, isFenced x.pStore = true → isFenced x.vStore = false) (plan : Op) :
    plan ∈ l.foldl (addPlan isFenced fenceOp) plans ↔ plan ∈ plans ∨ ∃ x ∈ l, x.Plans isFenced fenceOp plan := by
  induction l generalizing plans with
  | nil => simp
  | cons x l ih =>
      rw [List.foldl_cons, ih _ fun y hy => hl y (List.mem_cons_of_mem x hy),
        mem_addPlan isFenced fenceOp plans x (hl x List.mem_cons_self) plan]
      simp [or_assoc]

theorem CrashCandidate.Plans.volatile {isFenced : Store → Bool} {fenceOp : Op} {x : CrashCandidate} {plan : Op}
    (h : x.Plans isFenced fenceOp plan) : isFenced x.vStore = false := by
  rcases h with ⟨_, h, _⟩ | ⟨_, h, _⟩ <;> exact h

theorem mem_naivePlans {isFenced : Store → Bool} {fenceIndex : Nat} {fenceOp : Op}
    {candidates : List CrashCandidate} {plan : Op} :
    plan ∈ naivePlans isFenced fenceIndex fenceOp candidates ↔
      ∃ x ∈ candidates, x.last < fenceIndex ∧ x.Plans isFenced fenceOp plan := by
  rw [naivePlans, mem_foldl_addPlan]
  · simp only [List.not_mem_nil, false_or, List.mem_filter, Bool.and_eq_true, decide_eq_true_eq, Bool.not_eq_true']
    constructor
    · rintro ⟨x, ⟨hx, hlast, _⟩, hplan⟩
      exact ⟨x, hx, hlast, hplan⟩
    · rintro ⟨x, hx, hlast, hplan⟩
      exact ⟨x, ⟨hx, hlast, hplan.volatile⟩, hplan⟩
  · intro x hx _
    simp only [List.mem_filter, Bool.and_eq_true, Bool.not_eq_true'] at hx
    exact hx.2.2

theorem nodup_naivePlans (isFenced : Store → Bool) (fenceIndex : Nat) (fenceOp : Op)
    (candidates : List CrashCandidate) : (naivePlans isFenced fenceIndex fenceOp candidates).Nodup := by
  have hfold : ∀ (l : List CrashCandidate) (plans : List Op), plans.Nodup →
      (l.foldl (addPlan isFenced fenceOp) plans).Nodup := by
    intro l
    induction l with
    | nil => exact fun plans h => h
    | cons x l ih => exact fun plans h => ih _ (nodup_addPlan isFenced fenceOp plans x h)
  exact hfold _ [] List.nodup_nil

/-! ### The loops over the queue -/

/-- The loop pops `front`, which lies before the fence, and stops at `back`, which does not. -/
theorem verifyLoop_spec (isFenced : Store → Bool) (fenceIndex : Nat) (fenceOp : Op)
    (front back : List CrashCandidate) (plans : List Op) (processed : List CrashCandidate)
    (hne : ∀ x ∈ front ++ back, x.pStore.id ≠ x.vStore.id)
    (hfence : ∀ x ∈ front ++ back, x.pStore.id ≠ fenceIndex ∧ x.vStore.id ≠ fenceIndex)
    (hfront : ∀ x ∈ front, x.last < fenceIndex) (hback : ∀ x ∈ back, fenceIndex < x.last)
    (hboth : ∀ x ∈ front, isFenced x.pStore = true → isFenced x.vStore = false) :
    verifyLoop isFenced fenceIndex fenceOp (front ++ back) plans processed =
      .ok (back, front.foldl (addPlan isFenced fenceOp) plans, processed ++ front) := by
  induction front generalizing plans processed with
  | nil =>
      cases back with
      | nil => simp [verifyLoop]
      | cons x back =>
          have h1 := hne x (by simp)
          obtain ⟨h2, h3⟩ := hfence x (by simp)
          have h4 : max x.pStore.id x.vStore.id > fenceIndex := hback x List.mem_cons_self
          simp only [List.nil_append, verifyLoop, h1, h2, h3, ne_eq, not_false_eq_true, decide_true, assert_true,
            Loops.ok_bind, if_pos h4, List.foldl_nil, List.append_nil]
  | cons x front ih =>
      have h1 := hne x (by simp)
      obtain ⟨h2, h3⟩ := hfence x (by simp)
      have h4 : ¬max x.pStore.id x.vStore.id > fenceIndex := by
        have := hfront x List.mem_cons_self
        simp only [CrashCandidate.last] at this
        omega
      have h5 : (!isFenced x.pStore || !isFenced x.vStore) = true := by
        cases hp : isFenced x.pStore with
        | false => rfl
        | true => simp [hboth x List.mem_cons_self hp]
      have hrest := ih (addPlan isFenced fenceOp plans x) (processed ++ [x])
        (fun y hy => hne y (List.mem_cons_of_mem x hy)) (fun y hy => hfence y (List.mem_cons_of_mem x hy))
        (fun y hy => hfront y (List.mem_cons_of_mem x hy)) (fun y hy => hboth y (List.mem_cons_of_mem x hy))
      simp only [List.cons_append, verifyLoop, h1, h2, h3, ne_eq, not_false_eq_true, decide_true, assert_true,
        Loops.ok_bind, if_neg h4, h5, hrest, List.foldl_cons, List.append_assoc, List.nil_append]

/-- Popped candidates are put back in order if their `vStore` is volatile. -/
theorem foldl_bringBack (isFenced : Store → Bool) (processed queue : List CrashCandidate) :
    processed.reverse.foldl (bringBack isFenced) queue =
      (processed.filter fun x => !isFenced x.vStore) ++ queue := by
  induction processed generalizing queue with
  | nil => rfl
  | cons x processed ih =>
      rw [List.reverse_cons, List.foldl_append, ih, List.foldl_cons, List.foldl_nil, List.filter_cons, bringBack]
      cases isFenced x.pStore <;> cases isFenced x.vStore <;> simp

/-- A list sorted by `last` is cut by a fence into the candidates before it and those after it. -/
theorem sorted_cut (l : List CrashCandidate) (fenceIndex : Nat) (hsorted : l.Pairwise fun x y => x.last ≤ y.last)
    (hne : ∀ x ∈ l, x.last ≠ fenceIndex) :
    ∃ front back, l = front ++ back ∧ (∀ x ∈ front, x.last < fenceIndex) ∧ ∀ x ∈ back, fenceIndex < x.last := by
  induction l with
  | nil => exact ⟨[], [], rfl, by simp, by simp⟩
  | cons x l ih =>
      rw [List.pairwise_cons] at hsorted
      obtain ⟨hx, hsorted⟩ := hsorted
      by_cases hlt : x.last < fenceIndex
      · obtain ⟨front, back, rfl, hfront, hback⟩ := ih hsorted fun y hy => hne y (List.mem_cons_of_mem x hy)
        refine ⟨x :: front, back, rfl, ?_, hback⟩
        intro y hy
        rcases List.mem_cons.mp hy with rfl | hy
        · exact hlt
        · exact hfront y hy
      · refine ⟨[], x :: l, rfl, by simp, ?_⟩
        have hgt : fenceIndex < x.last := by
          have := hne x List.mem_cons_self
          omega
        intro y hy
        rcases List.mem_cons.mp hy with rfl | hy
        · exact hgt
        · exact lt_of_lt_of_le hgt (hx y hy)

/-! ### The invariant between fences -/

/-- The queue after the operations `done` of the transaction: the candidates seen at some fence whose
`vStore` is volatile, then those after every fence. -/
def QueueInv (isFenced : Store → Bool) (done : List Op) (candidates queue : List CrashCandidate) : Prop :=
  ∃ seen rest, candidates = seen ++ rest ∧ queue = (seen.filter fun x => !isFenced x.vStore) ++ rest ∧
    (∀ x ∈ seen, ∃ b, Op.fence b ∈ done ∧ x.last < b.id) ∧ ∀ x ∈ rest, ∀ b, Op.fence b ∈ done → b.id < x.last

theorem QueueInv.init (isFenced : Store → Bool) (candidates : List CrashCandidate) :
    QueueInv isFenced [] candidates candidates :=
  ⟨[], candidates, rfl, rfl, by simp, by simp⟩

/-- An operation other than a fence fences nothing and leaves the queue alone. -/
theorem QueueInv.skip {isFenced isFenced' : Store → Bool} {done : List Op} {candidates queue : List CrashCandidate}
    (h : QueueInv isFenced done candidates queue) {op : Op} (hop : ∀ b, op ≠ .fence b)
    (hsame : ∀ st, isFenced' st = isFenced st) : QueueInv isFenced' (done ++ [op]) candidates queue := by
  obtain ⟨seen, rest, hsplit, hqueue, hseen, hrest⟩ := h
  have hmem : ∀ b, Op.fence b ∈ done ++ [op] → Op.fence b ∈ done := by
    intro b hb
    rcases List.mem_append.mp hb with hb | hb
    · exact hb
    · exact absurd (List.mem_singleton.mp hb).symm (hop b)
  refine ⟨seen, rest, hsplit, ?_, ?_, fun x hx b hb => hrest x hx b (hmem b hb)⟩
  · simp only [hsame]
    exact hqueue
  · intro x hx
    obtain ⟨b, hb, hlt⟩ := hseen x hx
    exact ⟨b, List.mem_append_left _ hb, hlt⟩

/-- A candidate whose `vStore` alone is fenced adds no plan. -/
theorem foldl_addPlan_filter (isFenced : Store → Bool) (fenceOp : Op) (l : List CrashCandidate) (plans : List Op)
    (hl : ∀ x ∈ l, isFenced x.pStore = true → isFenced x.vStore = false) :
    l.foldl (addPlan isFenced fenceOp) plans =
      (l.filter fun x => !isFenced x.vStore).foldl (addPlan isFenced fenceOp) plans := by
  induction l generalizing plans with
  | nil => rfl
  | cons x l ih =>
      have hrest := fun plans => ih plans fun y hy => hl y (List.mem_cons_of_mem x hy)
      cases hv : isFenced x.vStore with
      | false => simp only [List.foldl_cons, hrest, List.filter_cons, hv, Bool.not_false, if_true]
      | true =>
          have hp : isFenced x.pStore = false := by
            cases hp : isFenced x.pStore with
            | false => rfl
            | true =>
                rw [hl x List.mem_cons_self hp] at hv
                cases hv
          have hskip : addPlan isFenced fenceOp plans x = plans := by
            simp [addPlan, hp, hv]
          simp only [List.foldl_cons, hskip, hrest, List.filter_cons, hv, Bool.not_true, Bool.false_eq_true, if_false]

/-- The candidates at fence `b`: those seen at an earlier fence, those this fence is the first one
after, and those after it. -/
structure FenceCut (isFenced : Store → Bool) (done : List Op) (b : BaseOperation)
    (candidates seen front back : List CrashCandidate) : Prop where
  split : candidates = seen ++ front ++ back
  before : ∀ x ∈ seen ++ front, x.last < b.id
  after : ∀ x ∈ back, b.id < x.last
  both : ∀ x ∈ front, isFenced x.pStore = true → isFenced x.vStore = false
  later : ∀ x ∈ back, ∀ b', Op.fence b' ∈ done → b'.id < x.last

theorem QueueInv.cut {isFenced : Store → Bool} {done : List Op} {candidates queue : List CrashCandidate}
    (h : QueueInv isFenced done candidates queue) {stores : List Store} (hcand : TxCandidates stores candidates)
    (b : BaseOperation) (hids : ∀ st ∈ stores, st.id ≠ b.id) (hdone : ∀ b', Op.fence b' ∈ done → b'.id < b.id)
    (hfenced : ∀ st ∈ stores, isFenced st = true → ∃ b', Op.fence b' ∈ done ∧ st.id < b'.id) :
    ∃ seen front back, FenceCut isFenced done b candidates seen front back ∧
      queue = (seen.filter fun x => !isFenced x.vStore) ++ front ++ back := by
  obtain ⟨seen, rest, hsplit, hqueue, hseen, hrest⟩ := h
  have hmem : ∀ x ∈ rest, x ∈ candidates := fun x hx => by rw [hsplit]; exact List.mem_append_right _ hx
  have hlastNe : ∀ x ∈ rest, x.last ≠ b.id := by
    intro x hx
    have h1 := hids _ (hcand.pStore x (hmem x hx))
    have h2 := hids _ (hcand.vStore x (hmem x hx))
    rw [CrashCandidate.last]
    omega
  have hsorted : rest.Pairwise fun x y => x.last ≤ y.last := by
    have := hcand.sorted
    rw [hsplit, List.pairwise_append] at this
    exact this.2.1
  obtain ⟨front, back, rfl, hfront, hback⟩ := sorted_cut rest b.id hsorted hlastNe
  refine ⟨seen, front, back, ⟨by rw [hsplit, List.append_assoc], ?_, hback, ?_, ?_⟩, by rw [hqueue, List.append_assoc]⟩
  · intro x hx
    rcases List.mem_append.mp hx with hx | hx
    · obtain ⟨b', hb', hlt⟩ := hseen x hx
      exact hlt.trans (hdone b' hb')
    · exact hfront x hx
  · -- the later store of a candidate not seen yet was issued after every fence
    intro x hx hp
    by_contra hv
    rw [Bool.not_eq_false] at hv
    have hx' := List.mem_append_left back hx
    obtain ⟨bp, hbp, hltp⟩ := hfenced _ (hcand.pStore x (hmem x hx')) hp
    obtain ⟨bv, hbv, hltv⟩ := hfenced _ (hcand.vStore x (hmem x hx')) hv
    have h1 := hrest x hx' bp hbp
    have h2 := hrest x hx' bv hbv
    rw [CrashCandidate.last] at h1 h2
    omega
  · exact fun x hx => hrest x (List.mem_append_right _ hx)

namespace FenceCut

variable {isFenced : Store → Bool} {done : List Op} {b : BaseOperation}
  {candidates seen front back : List CrashCandidate}

/-- What the loop pops. -/
theorem popped_both (h : FenceCut isFenced done b candidates seen front back) :
    ∀ x ∈ (seen.filter fun x => !isFenced x.vStore) ++ front,
      isFenced x.pStore = true → isFenced x.vStore = false := by
  intro x hx hp
  rcases List.mem_append.mp hx with hx | hx
  · simpa using (List.mem_filter.mp hx).2
  · exact h.both x hx hp

theorem popped_sublist (isFenced : Store → Bool) (seen front : List CrashCandidate) :
    ((seen.filter fun x => !isFenced x.vStore) ++ front).Sublist (seen ++ front) :=
  List.filter_sublist.append_right front

/-- The popped candidates give the plans of the whole list. -/
theorem plans (h : FenceCut isFenced done b candidates seen front back) :
    ((seen.filter fun x => !isFenced x.vStore) ++ front).foldl (addPlan isFenced (.fence b)) [] =
      naivePlans isFenced b.id (.fence b) candidates := by
  rw [foldl_addPlan_filter isFenced (.fence b) _ [] h.popped_both, naivePlans, h.split,
    List.filter_append (seen ++ front) back]
  have hnone : back.filter (fun x => x.last < b.id && !isFenced x.vStore) = [] := by
    rw [List.filter_eq_nil_iff]
    intro x hx
    have := h.after x hx
    simp only [Bool.and_eq_true, decide_eq_true_eq, not_and]
    omega
  have hsome : (seen ++ front).filter (fun x => x.last < b.id && !isFenced x.vStore) =
      (seen ++ front).filter fun x => !isFenced x.vStore := by
    apply List.filter_congr
    intro x hx
    simp [h.before x hx]
  rw [hnone, hsome, List.append_nil, List.filter_append, List.filter_append, List.filter_filter]
  simp only [Bool.and_self]

/-- Putting back the volatile candidates restores the invariant. -/
theorem putBack (h : FenceCut isFenced done b candidates seen front back) {isFenced' : Store → Bool}
    (hmono : ∀ st, isFenced st = true → isFenced' st = true) :
    QueueInv isFenced' (done ++ [.fence b]) candidates
      (((seen.filter fun x => !isFenced x.vStore) ++ front).reverse.foldl (bringBack isFenced') back) := by
  refine ⟨seen ++ front, back, h.split, ?_, ?_, ?_⟩
  · rw [foldl_bringBack, List.filter_append, List.filter_append, List.filter_filter]
    congr 2
    apply List.filter_congr
    intro x _
    cases hv : isFenced x.vStore with
    | false => simp
    | true => simp [hmono _ hv]
  · intro x hx
    exact ⟨b, by simp, h.before x hx⟩
  · intro x hx b' hb'
    rcases List.mem_append.mp hb' with hb' | hb'
    · exact h.later x hx b' hb'
    · cases List.mem_singleton.mp hb'
      exact h.after x hx

end FenceCut

/-- At a fence the loop finds the plans of the original list without a failed assertion, and putting
back the volatile candidates restores the invariant whatever the fence has persisted. -/
theorem QueueInv.fence {isFenced : Store → Bool} {done : List Op} {candidates queue : List CrashCandidate}
    (h : QueueInv isFenced done candidates queue) {stores : List Store} (hcand : TxCandidates stores candidates)
    (b : BaseOperation) (hids : ∀ st ∈ stores, st.id ≠ b.id) (hdone : ∀ b', Op.fence b' ∈ done → b'.id < b.id)
    (hfenced : ∀ st ∈ stores, isFenced st = true → ∃ b', Op.fence b' ∈ done ∧ st.id < b'.id) :
    ∃ queue' processed,
      verifyLoop isFenced b.id (.fence b) queue [] [] =
        .ok (queue', naivePlans isFenced b.id (.fence b) candidates, processed) ∧
      ∀ isFenced' : Store → Bool, (∀ st, isFenced st = true → isFenced' st = true) →
        QueueInv isFenced' (done ++ [.fence b]) candidates
          (processed.reverse.foldl (bringBack isFenced') queue') := by
  obtain ⟨seen, front, back, hcut, rfl⟩ := h.cut hcand b hids hdone hfenced
  have hpopped := FenceCut.popped_sublist isFenced seen front
  have hqueue : ∀ x ∈ (seen.filter fun x => !isFenced x.vStore) ++ front ++ back, x ∈ candidates := by
    rw [hcut.split]
    exact (hpopped.append_right back).subset
  have hloop := verifyLoop_spec isFenced b.id (.fence b) ((seen.filter fun x => !isFenced x.vStore) ++ front) back
    [] [] (fun x hx => hcand.ne x (hqueue x hx))
    (fun x hx => ⟨hids _ (hcand.pStore x (hqueue x hx)), hids _ (hcand.vStore x (hqueue x hx))⟩)
    (fun x hx => hcut.before x (hpopped.subset hx)) hcut.after hcut.popped_both
  refine ⟨back, (seen.filter fun x => !isFenced x.vStore) ++ front, ?_, fun isFenced' hmono => hcut.putBack hmono⟩
  rw [hloop, hcut.plans, List.nil_append]

end Witcher
