import Witcher.PMObjectList

/-! Insertion into a sorted list of disjoint objects merges the new object with exactly the objects it
overlaps, and so the list merges the ranges inserted so far. -/

namespace Witcher

open Bisection Intervals

namespace PMObject

theorem rangeCmp_eq_zero_iff (o p : PMObject) : o.rangeCmp p = 0 ↔ o.span.Overlap p.span := by
  rw [rangeCmp, Witcher.rangeCmp_eq_zero_iff, and_comm]
  rfl

theorem rangeCmp_eq_neg_one_iff (o p : PMObject) : o.rangeCmp p = -1 ↔ o.span.hi ≤ p.span.lo := by
  rw [rangeCmp, Witcher.rangeCmp_eq_neg_one_iff]
  rfl

@[simp] theorem span_lo (o : PMObject) : o.span.lo = o.address := rfl

@[simp] theorem span_hi (o : PMObject) : o.span.hi = o.address + o.size := rfl

/-- Two objects of which the first starts first overlap unless it also ends first. -/
theorem hi_le_of_rangeCmp_ne_zero {o p : PMObject} (hp : p.span.Proper) (hle : o.address ≤ p.address)
    (h : o.rangeCmp p ≠ 0) : o.span.hi ≤ p.span.lo := by
  by_contra hlt
  apply h
  rw [rangeCmp_eq_zero_iff]
  simp only [Span.Proper, span_lo, span_hi] at hp hlt
  exact ⟨by simp only [span_lo, span_hi]; omega, by simp only [span_lo, span_hi]; omega⟩

end PMObject

namespace PMObjectList

/-! ### Positions -/

theorem item_append (front back : List PMObject) (o : PMObject) : item (front ++ o :: back) front.length = .ok o := by
  simp [item]

theorem item_append_succ (front back : List PMObject) (o p : PMObject) :
    item (front ++ o :: p :: back) (front.length + 1) = .ok p := by
  simp [item]

/-- Overwriting one object and deleting the next. -/
theorem set_eraseIdx (front back : List PMObject) (o p q : PMObject) :
    ((front ++ o :: p :: back).set front.length q).eraseIdx (front.length + 1) = front ++ q :: back := by
  rw [List.set_append_right _ _ (le_refl _), Nat.sub_self, List.set_cons_zero,
    List.eraseIdx_append_of_length_le (Nat.le_succ _), Nat.succ_eq_add_one, Nat.add_sub_cancel_left]
  rfl

/-! ### Merging -/

theorem assert_le {o p : PMObject} (h : o.address ≤ p.address) :
    assert (decide (o.getBaseAddress ≤ p.getBaseAddress)) = .ok () := by
  rw [decide_eq_true (show o.getBaseAddress ≤ p.getBaseAddress from h), assert_true]

/-- The extension of an object by one it overlaps is the union of the two. -/
theorem span_extend (o p : PMObject) :
    (extend o p).span = ⟨o.address, max (o.address + o.size) (p.address + p.size)⟩ := by
  simp only [extend, PMObject.span, PMObject.getBaseAddress, PMObject.getMaxAddress, Span.mk.injEq, true_and]
  omega

theorem mem_points_extend {o p : PMObject} (hoverlap : o.span.Overlap p.span) {x : Int}
    (hx : x ∈ (extend o p).span.points) : x ∈ o.span.points ∨ x ∈ p.span.points := by
  rw [span_extend] at hx
  simp only [Span.points, Set.mem_Ico, Span.Overlap, PMObject.span_lo, PMObject.span_hi, lt_max_iff] at hx hoverlap ⊢
  omega

theorem inside_extend (o p : PMObject) (hle : o.address ≤ p.address) :
    o.span.Inside (extend o p).span ∧ p.span.Inside (extend o p).span := by
  rw [span_extend]
  exact ⟨⟨le_refl _, le_max_left _ _⟩, ⟨hle, le_max_right _ _⟩⟩

/-- What merging an object with those to the right of it gives: the objects it overlaps, which come
first, are replaced by the union. -/
structure MergedRight (c : PMObject) (back : List PMObject) (c' : PMObject) (mid rest : List PMObject) : Prop where
  split : back = mid ++ rest
  address : c'.address = c.address
  overlap : ∀ o ∈ mid, o.span.Overlap c.span
  after : ∀ o ∈ rest, c.span.hi ≤ o.span.lo
  hull : Hull c.span (mid.map PMObject.span) c'.span

theorem mergeRight_ok (front : List PMObject) (c : PMObject) (back : List PMObject) (fuel : Nat)
    (hfuel : back.length ≤ fuel) (hc : c.span.Proper) (hproper : ∀ o ∈ back, o.span.Proper)
    (hsorted : back.Pairwise fun o p => o.span.hi ≤ p.span.lo) (hle : ∀ o ∈ back, c.address ≤ o.address) :
    ∃ c' mid rest, mergeRight front.length fuel (front ++ c :: back) = .ok (front ++ c' :: rest) ∧
      MergedRight c back c' mid rest := by
  induction back generalizing c fuel with
  | nil =>
      refine ⟨c, [], [], ?_, rfl, rfl, by simp, by simp, Hull.self_only _⟩
      cases fuel with
      | zero => rfl
      | succ fuel => rw [mergeRight, if_neg (by simp)]
  | cons r rs ih =>
      obtain ⟨fuel, rfl⟩ : ∃ n, fuel = n + 1 := Nat.exists_eq_succ_of_ne_zero (by simp at hfuel; omega)
      have hr := hproper r List.mem_cons_self
      have hcr := hle r List.mem_cons_self
      obtain ⟨hrs, hsorted'⟩ := List.pairwise_cons.mp hsorted
      rw [mergeRight, if_pos (by simp), item_append_succ, item_append, Loops.ok_bind, Loops.ok_bind]
      split_ifs with hcmp
      · have hbefore := PMObject.hi_le_of_rangeCmp_ne_zero hr hcr hcmp
        refine ⟨c, [], r :: rs, rfl, rfl, rfl, by simp, ?_, Hull.self_only _⟩
        intro o ho
        rcases List.mem_cons.mp ho with rfl | ho
        · exact hbefore
        · exact hbefore.trans ((le_of_lt hr).trans (hrs o ho))
      · rw [not_not, PMObject.rangeCmp_eq_zero_iff] at hcmp
        obtain ⟨hinc, hinr⟩ := inside_extend c r hcr
        have hextend : (extend c r).span.Proper := lt_of_le_of_lt hinc.1 (lt_of_lt_of_le hc hinc.2)
        rw [assert_le hcr, Loops.ok_bind, set_eraseIdx]
        obtain ⟨c', mid, rest, hrun, hmerged⟩ := ih (extend c r) fuel (by simp at hfuel; omega) hextend
          (fun o ho => hproper o (List.mem_cons_of_mem r ho)) hsorted'
          (fun o ho => hle o (List.mem_cons_of_mem r ho))
        have hhi : (extend c r).span.hi = max c.span.hi r.span.hi := by rw [span_extend]; rfl
        refine ⟨c', r :: mid, rest, hrun, ?_, hmerged.address, ?_, ?_, ?_⟩
        · rw [hmerged.split, List.cons_append]
        · intro o ho
          rcases List.mem_cons.mp ho with rfl | ho
          · exact ⟨hcmp.2, hcmp.1⟩
          · -- `o` starts after `r` ends, so it is `c` that it overlaps
            have hmem : o ∈ rs := by rw [hmerged.split]; exact List.mem_append_left _ ho
            obtain ⟨h1, h2⟩ := hmerged.overlap o ho
            rw [hhi, lt_max_iff] at h1
            exact ⟨h1.resolve_right (not_lt_of_ge (hrs o hmem)), h2⟩
        · intro o ho
          exact hinc.2.trans (hmerged.after o ho)
        · rw [List.map_cons]
          exact Hull.cons hinc hinr (fun p hp => mem_points_extend hcmp hp) hmerged.hull

/-- What inserting `x` does to a list: the objects it overlaps are replaced by the union. -/
structure Inserted (x : PMObject) (list : List PMObject) (left mid right : List PMObject) (c : PMObject) : Prop where
  split : list = left ++ mid ++ right
  before : ∀ o ∈ left, o.span.hi ≤ x.span.lo
  overlap : ∀ o ∈ mid, o.span.Overlap x.span
  after : ∀ o ∈ right, x.span.hi ≤ o.span.lo
  hull : Hull x.span (mid.map PMObject.span) c.span

/-- The object on the left, if there is one, ends before `x`. -/
theorem tryMerge_apart (front back : List PMObject) (x : PMObject) (hx : x.span.Proper) (hproper : ∀ o ∈ back, o.span.Proper)
    (hsorted : back.Pairwise fun o p => o.span.hi ≤ p.span.lo) (hback : ∀ o ∈ back, x.address ≤ o.address)
    (hleft : mergeLeft (front ++ x :: back) front.length = .ok (front ++ x :: back, front.length))
    (hbefore : ∀ o ∈ front, o.span.hi ≤ x.span.lo) :
    ∃ left mid right c, tryMerge (front ++ x :: back) front.length = .ok (left ++ c :: right) ∧
      Inserted x (front ++ back) left mid right c := by
  obtain ⟨c, mid, rest, hrun, hmerged⟩ := mergeRight_ok front x back (front ++ x :: back).length
    (by simp; omega) hx hproper hsorted hback
  refine ⟨front, mid, rest, c, ?_, ?_, hbefore, hmerged.overlap, hmerged.after, hmerged.hull⟩
  · rw [tryMerge, hleft, Loops.ok_bind]
    exact hrun
  · rw [List.append_assoc, ← hmerged.split]

/-- The object on the left is extended by `x`, and the result merged with the objects on the right. -/
theorem tryMerge_joined (front back : List PMObject) (l x : PMObject) (hl : l.span.Proper) (hlx : l.address ≤ x.address)
    (hcmp : l.rangeCmp x = 0) (hproper : ∀ o ∈ back, o.span.Proper)
    (hsorted : back.Pairwise fun o p => o.span.hi ≤ p.span.lo) (hback : ∀ o ∈ back, x.address ≤ o.address)
    (hfront : ∀ o ∈ front, o.span.hi ≤ l.span.lo) (hcross : ∀ o ∈ back, l.span.hi ≤ o.span.lo) :
    ∃ left mid right c, tryMerge (front ++ l :: x :: back) (front.length + 1) = .ok (left ++ c :: right) ∧
      Inserted x (front ++ l :: back) left mid right c := by
  have hoverlap := (PMObject.rangeCmp_eq_zero_iff l x).mp hcmp
  obtain ⟨hinl, hinx⟩ := inside_extend l x hlx
  have hextend : (extend l x).span.Proper := lt_of_le_of_lt hinl.1 (lt_of_lt_of_le hl hinl.2)
  obtain ⟨c, mid, rest, hrun, hmerged⟩ := mergeRight_ok front (extend l x) back (front ++ extend l x :: back).length
    (by simp; omega) hextend hproper hsorted (fun o ho => hlx.trans (hback o ho))
  have hhi : (extend l x).span.hi = max l.span.hi x.span.hi := by rw [span_extend]; rfl
  refine ⟨front, l :: mid, rest, c, ?_, ?_, ?_, ?_, ?_, ?_⟩
  · rw [tryMerge, mergeLeft, item_append, item_append_succ, Loops.ok_bind, Loops.ok_bind, if_pos hcmp, assert_le hlx,
      Loops.ok_bind, set_eraseIdx, Loops.ok_bind]
    exact hrun
  · rw [hmerged.split, List.append_assoc, List.cons_append]
  · exact fun o ho => (hfront o ho).trans hlx
  · intro o ho
    rcases List.mem_cons.mp ho with rfl | ho
    · exact hoverlap
    · -- `o` starts after `l` ends, so it is `x` that it overlaps
      have hmem : o ∈ back := by rw [hmerged.split]; exact List.mem_append_left _ ho
      obtain ⟨h1, _⟩ := hmerged.overlap o ho
      rw [hhi, lt_max_iff] at h1
      exact ⟨h1.resolve_left (not_lt_of_ge (hcross o hmem)), lt_of_le_of_lt (hback o hmem) (hproper o hmem)⟩
  · exact fun o ho => hinx.2.trans (hmerged.after o ho)
  · rw [List.map_cons]
    exact Hull.cons hinx hinl (fun p hp => (mem_points_extend hoverlap hp).symm) hmerged.hull

theorem tryMerge_ok (front back : List PMObject) (x : PMObject) (hx : x.span.Proper)
    (hproper : ∀ o ∈ front ++ back, o.span.Proper)
    (hsorted : (front ++ back).Pairwise fun o p => o.span.hi ≤ p.span.lo) (hfront : ∀ o ∈ front, o.address ≤ x.address)
    (hback : ∀ o ∈ back, x.address ≤ o.address) :
    ∃ left mid right c, tryMerge (front ++ x :: back) front.length = .ok (left ++ c :: right) ∧
      Inserted x (front ++ back) left mid right c := by
  obtain ⟨hsortedf, hsortedb, hcross⟩ := List.pairwise_append.mp hsorted
  have hproperb : ∀ o ∈ back, o.span.Proper := fun o ho => hproper o (List.mem_append_right _ ho)
  rcases List.eq_nil_or_concat front with rfl | ⟨fs, l, rfl⟩
  · exact tryMerge_apart [] back x hx hproperb hsortedb hback rfl (by simp)
  · rw [List.concat_eq_append] at *
    have hlx := hfront l (by simp)
    have hfs : ∀ o ∈ fs, o.span.hi ≤ l.span.lo := fun o ho =>
      (List.pairwise_append.mp hsortedf).2.2 o ho l (List.mem_singleton_self l)
    have hlist : ∀ back', fs ++ [l] ++ back' = fs ++ l :: back' := fun back' => List.append_cons fs l back' ▸ rfl
    have hlength : (fs ++ [l]).length = fs.length + 1 := by simp
    by_cases hcmp : l.rangeCmp x = 0
    · rw [hlist, hlist, hlength]
      exact tryMerge_joined fs back l x (hproper l (by simp)) hlx hcmp hproperb hsortedb hback hfs (hcross l (by simp))
    · have hbefore := PMObject.hi_le_of_rangeCmp_ne_zero hx hlx hcmp
      apply tryMerge_apart (fs ++ [l]) back x hx hproperb hsortedb hback
      · rw [hlist, hlength, mergeLeft, item_append, item_append_succ, Loops.ok_bind, Loops.ok_bind, if_neg hcmp]
      · intro o ho
        rcases List.mem_append.mp ho with ho | ho
        · exact (hfs o ho).trans hlx
        · rw [List.mem_singleton.mp ho]
          exact hbefore

/-! ### Insertion -/

theorem item_eq {list : List PMObject} {i : Nat} (h : i < list.length) : item list i = .ok list[i] := by
  rw [item, List.getElem?_eq_getElem h]

theorem address_mono {list : List PMObject} (hproper : ∀ o ∈ list, o.span.Proper)
    (hsorted : list.Pairwise fun o p => o.span.hi ≤ p.span.lo) {i j : Nat} (hi : i < list.length) (hj : j < list.length)
    (hij : i ≤ j) : list[i].address ≤ list[j].address := by
  rcases Nat.eq_or_lt_of_le hij with rfl | hlt
  · exact le_refl _
  · have hle := List.pairwise_iff_getElem.mp hsorted i j hi hj hlt
    exact (le_of_lt (hproper _ (List.getElem_mem hi))).trans hle

/-- The position found for an object strictly inside the list: everything before it starts before the
object, everything from there on does not. -/
theorem insertSearch_ok {list : List PMObject} (x : PMObject) (hlength : 1 < list.length)
    (hfirst : list[0].address < x.address) (hlast : x.address < list[list.length - 1].address) :
    ∃ l, ∃ h : l + 1 < list.length,
      search (insertProbe list x) (list.length - 1) 0 (list.length - 1) = .gap l (l + 1) ∧
        list[l].address < x.address ∧ x.address ≤ list[l + 1].address := by
  have hprobe : ∀ i, ∀ h : i < list.length,
      insertProbe list x i = if x.address ≤ list[i].address then .gt else .lt := by
    intro i h
    rw [insertProbe, List.getElem?_eq_getElem h]
    rfl
  rcases search_spec (insertProbe list x) (list.length - 1) 0 (list.length - 1) (by omega) (by omega) with
    ⟨mid, _, _, hmid, heq⟩ | ⟨l, hl, _, hle, hlow, hhigh⟩
  · rw [hprobe mid (by omega)] at heq
    split_ifs at heq
  · refine ⟨l, by omega, hl, ?_, ?_⟩
    · rcases hlow with rfl | hlow
      · exact hfirst
      · rw [hprobe l (by omega)] at hlow
        split_ifs at hlow with h
        exact lt_of_not_ge h
    · rcases hhigh with hhigh | hhigh
      · simp only [hhigh]
        exact le_of_lt hlast
      · rw [hprobe (l + 1) (by omega)] at hhigh
        split_ifs at hhigh with h
        exact h

theorem insertIdx_eq (list : List PMObject) (x : PMObject) {i : Nat} (h : i ≤ list.length) :
    list.insertIdx i x = list.take i ++ x :: list.drop i := by
  induction i generalizing list with
  | zero => simp
  | succ i ih =>
      cases list with
      | nil => simp at h
      | cons o list =>
          rw [List.insertIdx_succ_cons, ih list (by simpa using h)]
          rfl

theorem insert_first {list : List PMObject} {x : PMObject} (hpos : 0 < list.length)
    (hfirst : x.getBaseAddress ≤ list[0].getBaseAddress) : insert list x = tryMerge (list.insertIdx 0 x) 0 := by
  have hlast : list.length - 1 < list.length := by omega
  rw [insert, if_neg (by omega), item_eq hpos, Loops.ok_bind, item_eq hlast, Loops.ok_bind, if_pos hfirst]

theorem insert_last {list : List PMObject} {x : PMObject} (hpos : 0 < list.length)
    (hfirst : ¬x.getBaseAddress ≤ list[0].getBaseAddress) (hlast : x.getBaseAddress ≥ list[list.length - 1].getBaseAddress) :
    insert list x = tryMerge (list.insertIdx list.length x) list.length := by
  have hend : list.length - 1 < list.length := by omega
  rw [insert, if_neg (by omega), item_eq hpos, Loops.ok_bind, item_eq hend, Loops.ok_bind, if_neg hfirst, if_pos hlast]

theorem insert_between {list : List PMObject} {x : PMObject} (hpos : 0 < list.length)
    (hfirst : ¬x.getBaseAddress ≤ list[0].getBaseAddress) (hlast : ¬x.getBaseAddress ≥ list[list.length - 1].getBaseAddress)
    {left right : Nat} (hsearch : search (insertProbe list x) (list.length - 1) 0 (list.length - 1) = .gap left right) :
    insert list x = tryMerge (list.insertIdx right x) right := by
  have hend : list.length - 1 < list.length := by omega
  rw [insert, if_neg (by omega), item_eq hpos, Loops.ok_bind, item_eq hend, Loops.ok_bind, if_neg hfirst, if_neg hlast, hsearch]

theorem insert_ok {list : List PMObject} (x : PMObject) (hx : x.span.Proper) (hproper : ∀ o ∈ list, o.span.Proper)
    (hsorted : list.Pairwise fun o p => o.span.hi ≤ p.span.lo) :
    ∃ left mid right c, insert list x = .ok (left ++ c :: right) ∧ Inserted x list left mid right c := by
  by_cases hempty : list.length = 0
  · obtain rfl := List.length_eq_zero_iff.mp hempty
    refine ⟨[], [], [], x, ?_, rfl, by simp, by simp, by simp, Hull.self_only _⟩
    rw [insert, if_pos hempty]
    rfl
  · have hpos : 0 < list.length := by omega
    -- the object is put at `i`, the first position whose object does not start before it
    have hat (i : Nat) (hi : i ≤ list.length) (hrun : insert list x = tryMerge (list.insertIdx i x) i)
        (hfront : ∀ o ∈ list.take i, o.address ≤ x.address) (hback : ∀ o ∈ list.drop i, x.address ≤ o.address) :
        ∃ left mid right c, insert list x = .ok (left ++ c :: right) ∧ Inserted x list left mid right c := by
      have hsplit := List.take_append_drop i list
      have h := tryMerge_ok (list.take i) (list.drop i) x hx (by rwa [hsplit]) (by rwa [hsplit]) hfront hback
      rwa [hsplit, List.length_take_of_le hi, ← insertIdx_eq list x hi, ← hrun] at h
    by_cases hfirst : x.getBaseAddress ≤ list[0].getBaseAddress
    · refine hat 0 (Nat.zero_le _) (insert_first hpos hfirst) (by simp) ?_
      intro o ho
      obtain ⟨j, hj, rfl⟩ := List.mem_iff_getElem.mp (List.mem_of_mem_drop ho)
      exact hfirst.trans (address_mono hproper hsorted hpos hj (Nat.zero_le j))
    · by_cases hlast : x.getBaseAddress ≥ list[list.length - 1].getBaseAddress
      · refine hat list.length (le_refl _) (insert_last hpos hfirst hlast) ?_ (by simp)
        intro o ho
        obtain ⟨j, hj, rfl⟩ := List.mem_iff_getElem.mp (List.mem_of_mem_take ho)
        exact (address_mono hproper hsorted hj (by omega) (by omega)).trans hlast
      · have hlength : 1 < list.length := by
          by_contra hle
          apply hfirst
          have hone : list.length - 1 = 0 := by omega
          simp only [hone] at hlast
          omega
        obtain ⟨l, hl, hsearch, hlow, hhigh⟩ := insertSearch_ok x hlength (lt_of_not_ge hfirst) (lt_of_not_ge hlast)
        refine hat (l + 1) (le_of_lt hl) (insert_between hpos hfirst hlast hsearch) ?_ ?_
        · intro o ho
          obtain ⟨j, hj, rfl⟩ := List.mem_take_iff_getElem.mp ho
          exact (address_mono hproper hsorted (by omega) (by omega) (by omega)).trans (le_of_lt hlow)
        · intro o ho
          obtain ⟨j, hj, rfl⟩ := List.mem_drop_iff_getElem.mp ho
          exact hhigh.trans (address_mono hproper hsorted hl (by omega) (by omega))

/-! ### Sequences of insertions -/

theorem insert_merged {list : List PMObject} {ranges : List (Span Int)} (x : PMObject) (hx : x.span.Proper)
    (hranges : ∀ r ∈ ranges, r.Proper) (h : Merged ranges (list.map PMObject.span)) :
    ∃ list', insert list x = .ok list' ∧ Merged (x.span :: ranges) (list'.map PMObject.span) := by
  obtain ⟨left, mid, right, c, hrun, hinserted⟩ := insert_ok x hx
    (fun o ho => h.proper _ (List.mem_map_of_mem ho)) (List.pairwise_map.mp h.sorted)
  rw [hinserted.split, List.map_append, List.map_append] at h
  refine ⟨left ++ c :: right, hrun, ?_⟩
  rw [List.map_append, List.map_cons]
  refine h.insert hx hranges ?_ ?_ ?_ hinserted.hull
  · intro s hs
    obtain ⟨o, ho, rfl⟩ := List.mem_map.mp hs
    exact hinserted.before o ho
  · intro s hs
    obtain ⟨o, ho, rfl⟩ := List.mem_map.mp hs
    exact hinserted.overlap o ho
  · intro s hs
    obtain ⟨o, ho, rfl⟩ := List.mem_map.mp hs
    exact hinserted.after o ho

theorem insertAll_merged (objects : List PMObject) (hpos : ∀ o ∈ objects, 0 < o.size) :
    ∃ list, insertAll objects = .ok list ∧ Merged (objects.map PMObject.span) (list.map PMObject.span) := by
  have hproper : ∀ o ∈ objects, o.span.Proper := fun o ho => Int.lt_add_of_pos_right _ (hpos o ho)
  refine Loops.foldlM_induction (motive := fun (done list : List PMObject) =>
    Merged (done.map PMObject.span) (list.map PMObject.span)) objects [] Merged.nil ?_
  intro done x rest list hobjects hmerged
  have hdone : ∀ r ∈ done.map PMObject.span, r.Proper := by
    intro r hr
    obtain ⟨o, ho, rfl⟩ := List.mem_map.mp hr
    exact hproper o (by rw [hobjects]; exact List.mem_append_left _ ho)
  obtain ⟨list', hrun, hmerged'⟩ := insert_merged x (hproper x (by rw [hobjects]; simp)) hdone hmerged
  refine ⟨list', hrun, hmerged'.congr_ranges fun r => ?_⟩
  simp only [List.map_append, List.map_cons, List.map_nil, List.mem_append, List.mem_cons, List.not_mem_nil, or_false]
  exact or_comm

/-- After any sequence of insertions of nonempty objects no assertion has failed, the list is sorted,
its objects are disjoint, cover what was inserted, and hold together exactly the ranges a chain of
overlaps connects; and any other order of the insertions gives the same addresses and sizes. -/
theorem insertAll_exact (objects : List PMObject) (hpos : ∀ o ∈ objects, 0 < o.size) :
    ∃ list, insertAll objects = .ok list ∧
      list.Pairwise (fun o p => o.address < p.address) ∧
      list.Pairwise (fun o p => Disjoint o.span.points p.span.points) ∧
      (∀ x ∈ objects, ∃! o, o ∈ list ∧ x.span.Inside o.span) ∧
      (⋃ o ∈ list, o.span.points) = (⋃ x ∈ objects, x.span.points) ∧
      (∀ x ∈ objects, ∀ y ∈ objects,
        (∃ o ∈ list, x.span.Inside o.span ∧ y.span.Inside o.span) ↔
          Chained (objects.map PMObject.span) x.span y.span) ∧
      ∀ objects' : List PMObject, objects'.Perm objects → ∃ list', insertAll objects' = .ok list' ∧
        list'.map (fun o => (o.address, o.size)) = list.map fun o => (o.address, o.size) := by
  obtain ⟨list, hrun, hmerged⟩ := insertAll_merged objects hpos
  have hsorted := List.pairwise_map.mp hmerged.sorted
  have hproper : ∀ x ∈ objects, x.span.Proper := fun x hx => Int.lt_add_of_pos_right _ (hpos x hx)
  have hlo : list.Pairwise fun o p => o.span.lo < p.span.lo := by
    have hmap := hmerged.sorted_lo
    rwa [List.pairwise_map] at hmap
  refine ⟨list, hrun, hlo, ?_, ?_, ?_, ?_, ?_⟩
  · exact hsorted.imp fun h => Set.disjoint_left.mpr fun x hx hx' =>
      absurd (lt_of_lt_of_le hx.2 (h.trans hx'.1)) (lt_irrefl x)
  · intro x hx
    obtain ⟨s, hs, hin⟩ := hmerged.inside x.span (List.mem_map_of_mem hx)
    obtain ⟨o, ho, rfl⟩ := List.mem_map.mp hs
    refine ⟨o, ⟨ho, hin⟩, ?_⟩
    rintro p ⟨hp, hin'⟩
    exact eq_of_mem_points PMObject.span hsorted hp ho (hin'.subset (hproper x hx).lo_mem) (hin.subset (hproper x hx).lo_mem)
  · have hunion := hmerged.iUnion_points
    simpa only [List.mem_map, Set.iUnion_exists, Set.biUnion_and', Set.iUnion_iUnion_eq_right] using hunion
  · intro x hx y hy
    rw [← hmerged.same_object_iff (List.mem_map_of_mem hx) (List.mem_map_of_mem hy)]
    simp
  · intro objects' hperm
    obtain ⟨list', hrun', hmerged'⟩ := insertAll_merged objects' fun o ho => hpos o (hperm.mem_iff.mp ho)
    have hspans : list'.map PMObject.span = list.map PMObject.span :=
      hmerged'.unique hmerged fun r => (hperm.map PMObject.span).mem_iff
    refine ⟨list', hrun', ?_⟩
    have hpair : ∀ l : List PMObject,
        l.map (fun o => (o.address, o.size)) = (l.map PMObject.span).map fun s => (s.lo, s.hi - s.lo) := by
      intro l
      rw [List.map_map]
      apply List.map_congr_left
      intro o _
      simp
    rw [hpair, hpair, hspans]

/-- Two objects that touch and one that bridges the second and a fourth. -/
theorem insertAll_exact_bridge :
    ∃ list, insertAll [.new 16 8, .new 24 8, .new 40 8, .new 28 16] = .ok list ∧
      list.map (fun o => (o.address, o.size)) = [(16, 8), (24, 24)] ∧
      insertAll [.new 28 16, .new 40 8, .new 16 8, .new 24 8] = .ok list := by
  obtain ⟨list, hrun, _⟩ := insertAll_exact [.new 16 8, .new 24 8, .new 40 8, .new 28 16] (by decide)
  have hlist : insertAll [.new 16 8, .new 24 8, .new 40 8, .new 28 16] = .ok [.new 16 8, .new 24 24] := by decide
  rw [hlist] at hrun
  cases hrun
  exact ⟨_, hlist, by decide, by decide⟩

end PMObjectList

end Witcher
