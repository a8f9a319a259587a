import Witcher.DynamicBlocks

/-! The stores that the bytes of a load come from (`findAllStoresForLoad`). The search goes back to a store of one of the
bytes and goes on with what the store has left of the load, so it finds the last store of every byte. -/

namespace Witcher.Writers

variable {α : Type} {writes : α → Nat → Prop} {b : Nat} {w z : α} {records older : List α}

/-- Of the records, the newest first, `w` is the last one that writes `b`. `older` are those before it. -/
inductive LastWriter (writes : α → Nat → Prop) (b : Nat) : List α → α → List α → Prop
  | first {w : α} {older : List α} (hwrites : writes w b) : LastWriter writes b (w :: older) w older
  | later {z w : α} {records older : List α} (hwrites : ¬writes z b) (h : LastWriter writes b records w older) :
      LastWriter writes b (z :: records) w older

/-- A byte that a record writes has no writer before it. -/
theorem LastWriter.cons_iff :
    LastWriter writes b (z :: records) w older ↔
      (writes z b ∧ w = z ∧ older = records) ∨ (¬writes z b ∧ LastWriter writes b records w older) := by
  constructor
  · rintro (hwrites | ⟨hwrites, h⟩)
    · exact .inl ⟨hwrites, rfl, rfl⟩
    · exact .inr ⟨hwrites, h⟩
  · rintro (⟨hwrites, rfl, rfl⟩ | ⟨hwrites, h⟩)
    · exact .first hwrites
    · exact .later hwrites h

/-- Between the writer and the newest record nothing writes the byte. -/
theorem lastWriter_iff :
    LastWriter writes b records w older ↔ ∃ newer, records = newer ++ w :: older ∧ writes w b ∧ ∀ z ∈ newer, ¬writes z b := by
  constructor
  · intro h
    induction h with
    | first hwrites => exact ⟨[], rfl, hwrites, fun _ hmem => nomatch hmem⟩
    | later hwrites _ ih =>
        obtain ⟨newer, rfl, hlast, hnewer⟩ := ih
        exact ⟨_ :: newer, rfl, hlast, List.forall_mem_cons.mpr ⟨hwrites, hnewer⟩⟩
  · rintro ⟨newer, rfl, hwrites, hnewer⟩
    induction newer with
    | nil => exact .first hwrites
    | cons z newer ih =>
        obtain ⟨hz, hnewer⟩ := List.forall_mem_cons.mp hnewer
        exact .later hz (ih hnewer)

end Witcher.Writers

namespace Witcher.TraceScan

open Loops Writers

variable {ν : Type}

def overlaps (first second : Entry) : Bool :=
  if first.address < second.address ∧ first.address + first.length - 1 < second.address then false
  else if second.address < first.address ∧ second.address + second.length - 1 < first.address then false
  else true

namespace Recording

/-- The block record that the execution of a store is found by. -/
def storeBlock (T : Recording ν) (store_index : Nat) (store_entry : Entry) : Except SearchError Nat :=
  T.findNextNestedID (store_index + 1) .bbType (T.getID (T.getInstByID store_entry.id)) store_entry.id store_entry.tid

/-- The sources in the order they are added, and the number of the searches that reached the start of the trace. The
records are those up to `store_index`, the last one first. -/
def findAllStoresForLoad (T : Recording ν) : List Entry → Entry → Except SearchError (List (DynValue ν) × Nat)
  | [], _ => .ok ([], 1)
  | store_entry :: rest, load_entry =>
      if store_entry.type = .stType ∧ overlaps store_entry load_entry then do
        let SI := T.getInstByID store_entry.id
        let bbindex ← T.storeBlock rest.length store_entry
        let before ←
          if load_entry.address < store_entry.address then
            T.findAllStoresForLoad rest { load_entry with length := store_entry.address - load_entry.address }
          else .ok ([], 0)
        let store_end := store_entry.address + store_entry.length
        let load_end := load_entry.address + load_entry.length
        let after ←
          if store_end < load_end then
            T.findAllStoresForLoad rest { load_entry with address := store_end, length := load_end - store_end }
          else .ok ([], 0)
        .ok (⟨SI, bbindex⟩ :: (before.1 ++ after.1), before.2 + after.2)
      else T.findAllStoresForLoad rest load_entry

end Recording

end Witcher.TraceScan

namespace Witcher

open TraceScan Loops Writers

/-! ### Bytes -/

/-- The byte is one of those that were read or written. -/
def Entry.Covers (entry : Entry) (b : Nat) : Prop :=
  entry.address.toNat ≤ b ∧ b < entry.address.toNat + entry.length.toNat

/-- The bytes end below 2⁶⁴. -/
def Entry.Fits (entry : Entry) : Prop := entry.address.toNat + entry.length.toNat < 2 ^ 64

/-- A store of some bytes that ends below 2⁶⁴. One of no bytes overlaps a load of the byte at its address, which it does not
write. -/
structure Entry.SoundStore (entry : Entry) : Prop where
  fits : entry.Fits
  length_pos : 0 < entry.length.toNat

variable {store load : Entry} {b : Nat}

theorem Entry.end_toNat (h : load.Fits) : (load.address + load.length).toNat = load.address.toNat + load.length.toNat := by
  rw [UInt64.toNat_add, Nat.mod_eq_of_lt h]

theorem Entry.last_toNat (h : load.Fits) (hpos : 0 < load.address.toNat + load.length.toNat) :
    (load.address + load.length - 1).toNat = load.address.toNat + load.length.toNat - 1 := by
  have hend := Entry.end_toNat h
  rw [UInt64.toNat_sub_of_le, hend]
  · rfl
  · rw [UInt64.le_iff_toNat_le, hend]
    exact hpos

theorem overlaps_iff (hstore : store.SoundStore) (hload : load.Fits) (hlength : 0 < load.length.toNat) :
    overlaps store load = true ↔ ∃ b, load.Covers b ∧ store.Covers b := by
  have hpos := hstore.length_pos
  have hlast := Entry.last_toNat hstore.fits (Nat.add_pos_right _ hpos)
  have hload := Entry.last_toNat hload (Nat.add_pos_right _ hlength)
  rw [overlaps]
  simp only [UInt64.lt_iff_toNat_lt, hlast, hload, Entry.Covers]
  split_ifs with hbefore hafter
  · refine iff_of_false id ?_
    rintro ⟨b, hb, hcovers⟩
    omega
  · refine iff_of_false id ?_
    rintro ⟨b, hb, hcovers⟩
    omega
  · refine iff_of_true rfl ⟨max store.address.toNat load.address.toNat, ?_, ?_⟩ <;> omega

/-! ### What a store leaves of a load -/

/-- The part of the load before the store. -/
def Entry.partBefore (load store : Entry) : Entry := { load with length := store.address - load.address }

/-- The part of the load after the store. -/
def Entry.partAfter (load store : Entry) : Entry :=
  { load with
    address := store.address + store.length
    length := load.address + load.length - (store.address + store.length) }

theorem Entry.partBefore_length (hlt : load.address < store.address) :
    (load.partBefore store).length.toNat = store.address.toNat - load.address.toNat :=
  UInt64.toNat_sub_of_le _ _ (UInt64.le_of_lt hlt)

theorem Entry.partAfter_fields (hstore : store.Fits) (hload : load.Fits)
    (hlt : store.address + store.length < load.address + load.length) :
    (load.partAfter store).address.toNat = store.address.toNat + store.length.toNat ∧
      (load.partAfter store).length.toNat =
        load.address.toNat + load.length.toNat - (store.address.toNat + store.length.toNat) := by
  refine ⟨Entry.end_toNat hstore, ?_⟩
  rw [← Entry.end_toNat hload, ← Entry.end_toNat hstore]
  exact UInt64.toNat_sub_of_le _ _ (UInt64.le_of_lt hlt)

/-- The bytes of the load that the store does not cover are those of the two parts. -/
theorem Entry.part_iff (hstore : store.Fits) (hload : load.Fits) (hshared : ∃ b, load.Covers b ∧ store.Covers b) :
    (load.Covers b ∧ ¬store.Covers b) ↔
      (load.address < store.address ∧ (load.partBefore store).Covers b) ∨
        (store.address + store.length < load.address + load.length ∧ (load.partAfter store).Covers b) := by
  obtain ⟨t, ht, hcovers⟩ := hshared
  have hbefore : load.address < store.address → ((load.partBefore store).Covers b ↔
      load.address.toNat ≤ b ∧ b < store.address.toNat) := fun hlt => by
    have hle := UInt64.lt_iff_toNat_lt.mp hlt
    rw [Entry.Covers, Entry.partBefore_length hlt, show (load.partBefore store).address = load.address from rfl]
    omega
  have hafter : store.address + store.length < load.address + load.length → ((load.partAfter store).Covers b ↔
      store.address.toNat + store.length.toNat ≤ b ∧ b < load.address.toNat + load.length.toNat) := fun hlt => by
    obtain ⟨haddress, hlength⟩ := Entry.partAfter_fields hstore hload hlt
    rw [UInt64.lt_iff_toNat_lt, Entry.end_toNat hstore, Entry.end_toNat hload] at hlt
    rw [Entry.Covers, haddress, hlength]
    omega
  rw [and_congr_right hbefore, and_congr_right hafter, UInt64.lt_iff_toNat_lt, UInt64.lt_iff_toNat_lt, Entry.end_toNat hstore,
    Entry.end_toNat hload]
  simp only [Entry.Covers] at *
  omega

theorem Entry.partBefore_pos (hlt : load.address < store.address) : 0 < (load.partBefore store).length.toNat := by
  have hlt' := UInt64.lt_iff_toNat_lt.mp hlt
  rw [Entry.partBefore_length hlt]
  omega

theorem Entry.partBefore_fits (hload : load.Fits) (hshared : ∃ b, load.Covers b ∧ store.Covers b)
    (hlt : load.address < store.address) : (load.partBefore store).Fits := by
  obtain ⟨b, hb, hcovers⟩ := hshared
  rw [Entry.Fits] at *
  rw [Entry.partBefore_length hlt, show (load.partBefore store).address = load.address from rfl]
  have hlt := UInt64.lt_iff_toNat_lt.mp hlt
  simp only [Entry.Covers] at hb hcovers
  omega

theorem Entry.partAfter_pos (hstore : store.Fits) (hload : load.Fits)
    (hlt : store.address + store.length < load.address + load.length) : 0 < (load.partAfter store).length.toNat := by
  rw [(Entry.partAfter_fields hstore hload hlt).2]
  rw [UInt64.lt_iff_toNat_lt, Entry.end_toNat hstore, Entry.end_toNat hload] at hlt
  omega

theorem Entry.partAfter_fits (hstore : store.Fits) (hload : load.Fits)
    (hlt : store.address + store.length < load.address + load.length) : (load.partAfter store).Fits := by
  obtain ⟨haddress, hlength⟩ := Entry.partAfter_fields hstore hload hlt
  rw [UInt64.lt_iff_toNat_lt, Entry.end_toNat hstore, Entry.end_toNat hload] at hlt
  rw [Entry.Fits] at *
  omega

end Witcher

namespace Witcher.TraceScan

open Loops Writers

variable {ν : Type} {T : Recording ν} {records rest older : List Entry} {store load : Entry} {b : Nat}

/-! ### The sources of a load -/

/-- The record is the last one of a store to the byte. -/
abbrev LastStore (b : Nat) (records : List Entry) (store : Entry) (older : List Entry) : Prop :=
  LastWriter (fun z b => z.type = .stType ∧ z.Covers b) b records store older

theorem lastStore_cons_iff {z : Entry} :
    LastStore b (z :: records) store older ↔
      ((z.type = .stType ∧ z.Covers b) ∧ store = z ∧ older = records) ∨
        (¬(z.type = .stType ∧ z.Covers b) ∧ LastStore b records store older) := LastWriter.cons_iff

/-- What there is to find for the bytes of `C`: the last stores to them. Nothing is lost if all of them were stored. -/
structure StoresOf (T : Recording ν) (records : List Entry) (C : Nat → Prop) (found : List (DynValue ν) × Nat) : Prop where
  mem_iff : ∀ d, d ∈ found.1 ↔ ∃ b store older, C b ∧ LastStore b records store older ∧ d.V = T.getInstByID store.id ∧
    T.storeBlock older.length store = .ok d.index
  lost_iff : found.2 = 0 ↔ ∀ b, C b → ∃ store ∈ records, store.type = .stType ∧ store.Covers b

variable {C D : Nat → Prop} {found found' : List (DynValue ν) × Nat}

theorem storesOf_nil (hb : C b) : StoresOf T [] C ([], 1) := by
  constructor
  · intro d
    refine iff_of_false (fun hmem => nomatch hmem) ?_
    rintro ⟨b, store, older, -, hlast, -⟩
    cases hlast
  · refine iff_of_false Nat.one_ne_zero fun h => ?_
    obtain ⟨store, hmem, -⟩ := h b hb
    cases hmem

theorem storesOf_empty (hC : ∀ b, ¬C b) : StoresOf T records C ([], 0) := by
  refine ⟨fun d => iff_of_false (fun hmem => nomatch hmem) ?_, iff_of_true rfl fun b hb => (hC b hb).elim⟩
  rintro ⟨b, store, older, hb, -⟩
  exact hC b hb

theorem StoresOf.append (h : StoresOf T records C found) (h' : StoresOf T records D found') :
    StoresOf T records (fun b => C b ∨ D b) (found.1 ++ found'.1, found.2 + found'.2) := by
  constructor
  · intro d
    rw [List.mem_append, h.mem_iff, h'.mem_iff]
    constructor
    · rintro (⟨b, store, older, hb, hd⟩ | ⟨b, store, older, hb, hd⟩)
      · exact ⟨b, store, older, .inl hb, hd⟩
      · exact ⟨b, store, older, .inr hb, hd⟩
    · rintro ⟨b, store, older, hb | hb, hd⟩
      · exact .inl ⟨b, store, older, hb, hd⟩
      · exact .inr ⟨b, store, older, hb, hd⟩
  · rw [Nat.add_eq_zero_iff, h.lost_iff, h'.lost_iff, ← forall_and]
    exact forall_congr' fun b => or_imp.symm

/-- A record that stores none of the bytes is passed over. -/
theorem StoresOf.skip (h : StoresOf T records C found) (hstore : ∀ b, C b → ¬(store.type = .stType ∧ store.Covers b)) :
    StoresOf T (store :: records) C found := by
  constructor
  · intro d
    rw [h.mem_iff]
    refine exists_congr fun b => exists_congr fun w => exists_congr fun older => and_congr_right fun hb => and_congr_left' ?_
    rw [lastStore_cons_iff, or_iff_right fun h => hstore b hb h.1, and_iff_right (hstore b hb)]
  · rw [h.lost_iff]
    refine forall₂_congr fun b hb => ?_
    rw [List.exists_mem_cons_iff, or_iff_right (hstore b hb)]

/-- A store of some of the bytes is a source, and those that it does not cover come from before it. -/
theorem StoresOf.add {bbindex : Nat} (h : StoresOf T records (fun b => C b ∧ ¬store.Covers b) found)
    (htype : store.type = .stType) (hshared : ∃ b, C b ∧ store.Covers b)
    (hblock : T.storeBlock records.length store = .ok bbindex) :
    StoresOf T (store :: records) C (⟨T.getInstByID store.id, bbindex⟩ :: found.1, found.2) := by
  constructor
  · intro d
    rw [List.mem_cons, h.mem_iff]
    constructor
    · rintro (rfl | ⟨b, w, older, ⟨hb, hcovers⟩, hlast, hd⟩)
      · obtain ⟨b, hb, hcovers⟩ := hshared
        exact ⟨b, store, records, hb, .first ⟨htype, hcovers⟩, rfl, hblock⟩
      · exact ⟨b, w, older, hb, .later (fun h => hcovers h.2) hlast, hd⟩
    · rintro ⟨b, w, older, hb, hlast, hV, hindex⟩
      rcases lastStore_cons_iff.mp hlast with ⟨-, rfl, rfl⟩ | ⟨hcovers, hlast⟩
      · left
        obtain ⟨V, index⟩ := d
        cases hV
        rw [Except.ok.inj (hblock.symm.trans hindex)]
      · exact .inr ⟨b, w, older, ⟨hb, fun h => hcovers ⟨htype, h⟩⟩, hlast, hV, hindex⟩
  · rw [h.lost_iff]
    refine forall_congr' fun b => ?_
    rw [List.exists_mem_cons_iff, and_iff_right htype, and_imp]
    refine imp_congr_right fun _ => ⟨fun hb => ?_, fun hb hcovers => hb.resolve_left hcovers⟩
    exact or_iff_not_imp_left.mpr hb

/-- Every store that may be met is sound, and its block record is found. -/
def StoresFound (T : Recording ν) (records : List Entry) : Prop :=
  ∀ newer store older, records = newer ++ store :: older → store.type = .stType →
    store.SoundStore ∧ ∃ bbindex, T.storeBlock older.length store = .ok bbindex

theorem StoresFound.tail (h : StoresFound T (store :: records)) : StoresFound T records :=
  fun newer w older heq => h (store :: newer) w older (congrArg _ heq)

theorem findAllStoresForLoad_meets {left right : List (DynValue ν) × Nat} {bbindex : Nat} (htype : store.type = .stType)
    (hoverlaps : overlaps store load = true) (hblock : T.storeBlock rest.length store = .ok bbindex)
    (hleft : (if load.address < store.address then
      T.findAllStoresForLoad rest (load.partBefore store) else .ok ([], 0)) = .ok left)
    (hright : (if store.address + store.length < load.address + load.length then
      T.findAllStoresForLoad rest (load.partAfter store) else .ok ([], 0)) = .ok right) :
    T.findAllStoresForLoad (store :: rest) load =
      .ok (⟨T.getInstByID store.id, bbindex⟩ :: (left.1 ++ right.1), left.2 + right.2) := by
  rw [Entry.partBefore] at hleft
  rw [Entry.partAfter] at hright
  rw [Recording.findAllStoresForLoad, if_pos ⟨htype, hoverlaps⟩]
  simp only [hblock, ok_bind]
  split_ifs at hleft hright ⊢
  · rw [hleft, ok_bind, hright, ok_bind]
  · cases hright
    rw [hleft, ok_bind]
  · cases hleft
    rw [hright, ok_bind]
  · cases hleft
    cases hright
    rfl

/-- The search finds exactly the last stores to the bytes of the load. -/
theorem findAllStoresForLoad_storesOf (hfound : StoresFound T records) (hload : load.Fits) (hlength : 0 < load.length.toNat) :
    ∃ found, T.findAllStoresForLoad records load = .ok found ∧ StoresOf T records load.Covers found := by
  induction records generalizing load with
  | nil => exact ⟨([], 1), rfl, storesOf_nil (b := load.address.toNat) ⟨Nat.le_refl _, by omega⟩⟩
  | cons store rest ih =>
      by_cases hmeets : store.type = .stType ∧ overlaps store load
      · obtain ⟨htype, hoverlaps⟩ := hmeets
        obtain ⟨hstore, bbindex, hblock⟩ := hfound [] store rest rfl htype
        have hshared := (overlaps_iff hstore hload hlength).mp hoverlaps
        have hleft : ∃ found, (if load.address < store.address then T.findAllStoresForLoad rest (load.partBefore store)
            else .ok ([], 0)) = .ok found ∧
              StoresOf T rest (fun b => load.address < store.address ∧ (load.partBefore store).Covers b) found := by
          by_cases hlt : load.address < store.address
          · rw [if_pos hlt]
            simp only [hlt, true_and]
            exact ih hfound.tail (Entry.partBefore_fits hload hshared hlt) (Entry.partBefore_pos hlt)
          · rw [if_neg hlt]
            exact ⟨_, rfl, storesOf_empty fun b hb => hlt hb.1⟩
        have hright : ∃ found, (if store.address + store.length < load.address + load.length then
            T.findAllStoresForLoad rest (load.partAfter store) else .ok ([], 0)) = .ok found ∧
              StoresOf T rest (fun b => store.address + store.length < load.address + load.length ∧
                (load.partAfter store).Covers b) found := by
          by_cases hlt : store.address + store.length < load.address + load.length
          · rw [if_pos hlt]
            simp only [hlt, true_and]
            exact ih hfound.tail (Entry.partAfter_fits hstore.fits hload hlt) (Entry.partAfter_pos hstore.fits hload hlt)
          · rw [if_neg hlt]
            exact ⟨_, rfl, storesOf_empty fun b hb => hlt hb.1⟩
        obtain ⟨left, hleft, hbefore⟩ := hleft
        obtain ⟨right, hright, hafter⟩ := hright
        have hparts := hbefore.append hafter
        simp only [← Entry.part_iff hstore.fits hload hshared] at hparts
        refine ⟨_, ?_, hparts.add htype hshared hblock⟩
        exact findAllStoresForLoad_meets htype hoverlaps hblock hleft hright
      · obtain ⟨found, heq, hstores⟩ := ih hfound.tail hload hlength
        refine ⟨found, ?_, hstores.skip fun b hb hstore => hmeets ⟨hstore.1, ?_⟩⟩
        · rw [Recording.findAllStoresForLoad, if_neg hmeets, heq]
        · exact (overlaps_iff (hfound [] store rest rfl hstore.1).1 hload hlength).mpr ⟨b, hb, hstore.2⟩

end Witcher.TraceScan
