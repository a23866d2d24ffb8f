import N00b.Hatrack.CrownShift

/-!
# When insertions return, where a shift leaves nothing

An insertion that helps for a bucket at a distance of 64 or more waits for a bit that does not exist.
Up to there it does what the insertion of `Crown` does, since both shifts are the same below 64. So a
call returns exactly when its probe passes no such bucket, in the store, and in the one that it
migrates to when it needs a bucket of a full store.

## Main results

- `helpLoop_zero`, `helpLoop_bit`: the loop that waits ends when there is a bit to wait for.
- `Represents.reserve_spec`, `Represents.exec_spec`: an insertion whose way is clear.
- `exec_blocked`: an insertion whose way is not.
- `run_returns_iff`: the insertions that return, after every sequence of insertions.
-/

namespace N00b.Hatrack.ZeroShift

open Probing (occupied pos)
open Crown (Represents)
open N00b.Lib (Run)

variable {s : CrownStore} {k : ℕ} {hv : Hash}

/-! ## Waiting for a bit -/

variable {i : ℕ}

/-- Within the width of the map the bit is that of the distance. -/
theorem bitToSet_of_lt (h : i < 64) : bitToSet i = homeShift i := by
  rw [bitToSet, homeShift, Nat.mod_eq_of_lt h]

/-- Beyond it there is no bit to set. -/
theorem bitToSet_of_ge (h : 64 ≤ i) : bitToSet i = 0 :=
  BitVec.ushiftRight_eq_zero h

theorem homeShift_ne_zero (i : ℕ) : homeShift i ≠ 0 := by
  intro h
  have hbit := homeShift_getMsbD i (i % 64)
  rw [h] at hbit
  simp at hbit

/-- A bit is in a map or not. -/
theorem and_homeShift (map : BitVec 64) (i : ℕ) :
    map &&& homeShift i = 0 ∨ map &&& homeShift i = homeShift i := by
  cases hbit : map.getMsbD (i % 64) with
  | false =>
    refine .inl (eq_zero_of_getMsbD fun p => ?_)
    rw [BitVec.getMsbD_and, homeShift_getMsbD]
    by_cases hp : p = i % 64
    · simp [hp, hbit]
    · simp [hp]
  | true =>
    refine .inr (BitVec.eq_of_getMsbD_eq fun p _ => ?_)
    rw [BitVec.getMsbD_and, homeShift_getMsbD]
    by_cases hp : p = i % 64
    · simp [hp, hbit]
    · simp [hp]

theorem or_eq_self {map bit : BitVec 64} (h : map &&& bit = bit) : map ||| bit = map := by
  refine BitVec.eq_of_getMsbD_eq fun p _ => ?_
  have hbit := congrArg (BitVec.getMsbD · p) h
  simp only [BitVec.getMsbD_and] at hbit
  rw [BitVec.getMsbD_or]
  cases hm : map.getMsbD p <;> cases hb : bit.getMsbD p <;> simp_all

/-- **Without a bit to set** the loop of a helper never ends. -/
theorem helpLoop_zero (fuel : ℕ) (map : BitVec 64) : helpLoop 0 fuel map map = none := by
  induction fuel with
  | zero => rfl
  | succ fuel ih => simpa [helpLoop] using ih

/-- It ends at once when the bit is there. -/
theorem helpLoop_present {map bit : BitVec 64} (h : map &&& bit ≠ 0) (fuel : ℕ)
    (neighborMap : BitVec 64) : helpLoop bit (fuel + 1) neighborMap map = some neighborMap := by
  rw [helpLoop, if_pos h]

theorem or_and_homeShift (map : BitVec 64) (i : ℕ) :
    (map ||| homeShift i) &&& homeShift i = homeShift i := by
  refine BitVec.eq_of_getMsbD_eq fun p _ => ?_
  rw [BitVec.getMsbD_and, BitVec.getMsbD_or]
  cases map.getMsbD p <;> cases (homeShift i).getMsbD p <;> rfl

/-- It ends with the bit set otherwise. -/
theorem helpLoop_bit (map : BitVec 64) (i fuel : ℕ) :
    helpLoop (homeShift i) (fuel + 3) map map = some (map ||| homeShift i) := by
  rcases and_homeShift map i with habs | hpres
  · have hne : map ||| homeShift i ≠ map := by
      intro hsame
      have hbit := or_and_homeShift map i
      rw [hsame, habs] at hbit
      exact homeShift_ne_zero i hbit.symm
    have hseen := or_and_homeShift map i
    rw [helpLoop, if_neg (not_not.mpr habs), if_pos rfl, helpLoop, if_neg (not_not.mpr habs),
      if_neg hne]
    exact helpLoop_present (by rw [hseen]; exact homeShift_ne_zero i) fuel _
  · rw [or_eq_self hpres]
    exact helpLoop_present (by rw [hpres]; exact homeShift_ne_zero i) _ _

/-- When it ends, the bit was within the width of the map. -/
theorem helpLoop_eq_some {map map' : BitVec 64} {i fuel : ℕ}
    (h : helpLoop (bitToSet i) fuel map map = some map') :
    i < 64 ∧ map' = map ||| homeShift i := by
  have hi : i < 64 := by
    by_contra hge
    rw [bitToSet_of_ge (Nat.le_of_not_lt hge), helpLoop_zero] at h
    cases h
  refine ⟨hi, ?_⟩
  rw [bitToSet_of_lt hi] at h
  have hmono : ∀ (fuel : ℕ) (n m r : BitVec 64), helpLoop (homeShift i) fuel n m = some r →
      helpLoop (homeShift i) (fuel + 3) n m = some r := by
    intro fuel
    induction fuel with
    | zero => exact fun n m r hr => by cases hr
    | succ fuel ih =>
      intro n m r hr
      rw [helpLoop] at hr ⊢
      split at hr
      · rename_i hbit
        rwa [if_pos hbit]
      · rename_i hbit
        rw [if_neg hbit]
        split at hr
        · rename_i hsame
          rw [if_pos hsame]
          exact ih _ _ _ hr
        · rename_i hother
          rw [if_neg hother]
          exact ih _ _ _ hr
  have hthree := hmono fuel _ _ _ h
  rw [helpLoop_bit, Option.some.injEq] at hthree
  exact hthree.symm

/-! ## Maps -/

theorem setBit_of_lt (h : i < 64) (s : CrownStore) (bix : ℕ) :
    setBit s bix i = s.setBit bix i := by
  rw [setBit, bitToSet_of_lt h]
  rfl

theorem setBit_of_ge (h : 64 ≤ i) (s : CrownStore) (bix : ℕ) : setBit s bix i = s := by
  rw [setBit, bitToSet_of_ge h]
  have hsame : s.buckets.set bix (s.bucket bix) = s.buckets := by
    refine List.ext_getElem? fun j => ?_
    rw [List.getElem?_set]
    split
    · rename_i hj
      subst hj
      split
      · rename_i hlt
        simp [CrownStore.bucket, hlt]
      · rename_i hge
        rw [List.getElem?_eq_none (Nat.le_of_not_lt hge)]
    · rfl
  simp [setMap, CrownStore.setBucket, hsame]

theorem hv_setMap (s : CrownStore) (orig i : ℕ) (map : BitVec 64) :
    ((setMap s orig map).bucket i).hv = (s.bucket i).hv := by
  by_cases hi : i = orig
  · subst hi
    by_cases hlt : i < s.buckets.length
    · simp [setMap, CrownStore.bucket_setBucket_self s hlt]
    · simp [setMap, CrownStore.setBucket, CrownStore.bucket, Nat.le_of_not_lt hlt]
  · rw [setMap, CrownStore.bucket_setBucket_of_ne s hi]

theorem hv_setBit (s : CrownStore) (orig i j : ℕ) :
    ((s.setBit orig j).bucket i).hv = (s.bucket i).hv :=
  hv_setMap s orig i _

/-! ## The way of a probe -/

/-- The bucket at a distance from where the probe of a hash value starts. -/
def along (s : CrownStore) (hv : Hash) (e : ℕ) : CrownBucket :=
  s.bucket ((bucketIndex hv s.lastSlot + e) &&& s.lastSlot)

/-- The probe of a hash value passes, at a distance of 64 or more, a bucket of another value whose
probe starts at the same bucket. -/
def Blocked (s : CrownStore) (hv : Hash) (i : ℕ) : Prop :=
  64 ≤ i ∧ (∀ e ≤ i, (along s hv e).hv ≠ 0 ∧ (along s hv e).hv ≠ hv) ∧
    bucketIndex (along s hv i).hv s.lastSlot = bucketIndex hv s.lastSlot

/-- The probe of a hash value passes no such bucket. -/
def Clear (s : CrownStore) (hv : Hash) : Prop := ∀ i, ¬Blocked s hv i

/-- The way of an insertion is clear: in the store, and in the one that it migrates to when it needs
a bucket of a full store. -/
def ClearWay (t : Crown) (hv : Hash) : Prop :=
  Clear t.storeCurrent hv ∧
    (t.storeCurrent.records hv = none → t.storeCurrent.threshold ≤ t.storeCurrent.usedCount →
      Clear (migrate t).storeCurrent hv)

theorem along_eq (hlast : s.lastSlot = 2 ^ k - 1) (hv : Hash) (e : ℕ) :
    along s hv e = s.bucket (pos (2 ^ k) (hv.toNat % 2 ^ k) e) := by
  rw [along, hlast, bucketIndex_eq, and_lastSlot]
  rfl

/-- A scan that ends finds what a scan does whose shifts wrap around. -/
theorem scanHelp_eq_some {fuel orig n : ℕ} {i bix : ℕ} {r : CrownStore × CrownProbe}
    (h : scanHelp fuel hv orig n s i bix = some r) : r = s.scanHelp hv orig n i bix := by
  induction n generalizing s i bix with
  | zero => exact (Option.some.inj h).symm
  | succ n ih =>
    rw [scanHelp] at h
    rw [CrownStore.scanHelp]
    split at h
    · rename_i hzero
      rw [if_pos hzero]
      exact (Option.some.inj h).symm
    · rename_i hzero
      rw [if_neg hzero]
      split at h
      · rename_i hsame
        rw [if_pos hsame]
        exact (Option.some.inj h).symm
      · rename_i hsame
        rw [if_neg hsame]
        split at h
        · rename_i hhome
          cases hloop : helpLoop (bitToSet i) fuel (s.bucket orig).neighborMap
              (s.bucket orig).neighborMap with
          | none =>
            rw [hloop] at h
            cases h
          | some map =>
            rw [hloop] at h
            obtain ⟨_, rfl⟩ := helpLoop_eq_some hloop
            simp only [if_pos hhome]
            exact ih h
        · rename_i hhome
          simp only [if_neg hhome]
          exact ih h

/-- A scan ends if no bucket that it helps is too far from its home. -/
theorem scanHelp_isSome (hlast : s.lastSlot = 2 ^ k - 1) {orig : ℕ} (fuel n i : ℕ)
    (hclear : ∀ j, i ≤ j → 64 ≤ j →
      (∀ e, i ≤ e → e ≤ j → (s.bucket (pos (2 ^ k) orig e)).hv ≠ 0 ∧
        (s.bucket (pos (2 ^ k) orig e)).hv ≠ hv) →
      bucketIndex (s.bucket (pos (2 ^ k) orig j)).hv s.lastSlot ≠ orig) :
    (scanHelp (fuel + 3) hv orig n s i (pos (2 ^ k) orig i)).isSome := by
  induction n generalizing s i with
  | zero => rfl
  | succ n ih =>
    rw [scanHelp]
    by_cases hzero : (s.bucket (pos (2 ^ k) orig i)).hv = 0
    · rw [if_pos hzero]
      rfl
    · rw [if_neg hzero]
      by_cases hsame : (s.bucket (pos (2 ^ k) orig i)).hv = hv
      · rw [if_pos hsame]
        rfl
      · rw [if_neg hsame, hlast, and_lastSlot, Probing.pos_succ]
        -- the buckets behind this one
        have hnext : ∀ j, i + 1 ≤ j → 64 ≤ j →
            (∀ e, i + 1 ≤ e → e ≤ j → (s.bucket (pos (2 ^ k) orig e)).hv ≠ 0 ∧
              (s.bucket (pos (2 ^ k) orig e)).hv ≠ hv) →
            bucketIndex (s.bucket (pos (2 ^ k) orig j)).hv s.lastSlot ≠ orig := by
          intro j hij hj hbusy
          refine hclear j (by omega) hj fun e hie hej => ?_
          rcases Nat.lt_or_eq_of_le hie with hlt | rfl
          · exact hbusy e hlt hej
          · exact ⟨hzero, hsame⟩
        split
        · rename_i hhome
          have hi : i < 64 := by
            by_contra hge
            refine hclear i le_rfl (Nat.le_of_not_lt hge) (fun e hie hei => ?_)
              (by rw [hlast]; exact hhome)
            obtain rfl : e = i := by omega
            exact ⟨hzero, hsame⟩
          rw [bitToSet_of_lt hi, helpLoop_bit]
          refine ih (s := s.setBit orig i) hlast (i + 1) fun j hij hj hbusy => ?_
          rw [hv_setBit]
          refine hnext j hij hj fun e hie hej => ?_
          have hother := hbusy e hie hej
          rwa [hv_setBit] at hother
        · exact ih hlast (i + 1) hnext

/-- It does not end if there is one. -/
theorem scanHelp_blocked (hlast : s.lastSlot = 2 ^ k - 1) {orig : ℕ} (fuel n i j : ℕ) (hij : i ≤ j)
    (hjn : j < i + n) (hj : 64 ≤ j)
    (hbusy : ∀ e, i ≤ e → e ≤ j → (s.bucket (pos (2 ^ k) orig e)).hv ≠ 0 ∧
      (s.bucket (pos (2 ^ k) orig e)).hv ≠ hv)
    (hhome : bucketIndex (s.bucket (pos (2 ^ k) orig j)).hv s.lastSlot = orig) :
    scanHelp fuel hv orig n s i (pos (2 ^ k) orig i) = none := by
  induction n generalizing s i with
  | zero => omega
  | succ n ih =>
    obtain ⟨hzero, hsame⟩ := hbusy i le_rfl hij
    rw [scanHelp, if_neg hzero, if_neg hsame]
    rcases Nat.lt_or_eq_of_le hij with hlt | rfl
    · rw [hlast, and_lastSlot, Probing.pos_succ]
      split
      · cases hloop : helpLoop (bitToSet i) fuel (s.bucket orig).neighborMap
            (s.bucket orig).neighborMap with
        | none => rfl
        | some map =>
          refine ih (s := setMap s orig map) hlast (i + 1) hlt (by omega) ?_ ?_
          · intro e hie hej
            rw [hv_setMap]
            exact hbusy e (by omega) hej
          · rw [hv_setMap]
            exact hhome
      · exact ih hlast (i + 1) hlt (by omega) (fun e hie hej => hbusy e (by omega) hej) hhome
    · rw [if_pos hhome, bitToSet_of_ge hj, helpLoop_zero]

/-! ## The probe of an insertion -/

/-- A search that ends finds what it should. -/
theorem findHelp_eq_some {fuel : ℕ} {r : CrownStore × CrownProbe}
    (h : findHelp fuel s hv = some r) : r = s.findHelp hv := by
  cases hmap : s.probeMap hv with
  | hit bix =>
    simp only [findHelp, hmap] at h
    simp only [CrownStore.findHelp, hmap]
    exact (Option.some.inj h).symm
  | past i =>
    simp only [findHelp, hmap] at h
    simp only [CrownStore.findHelp, hmap]
    exact scanHelp_eq_some h

theorem hv_iff_slot (i : ℕ) :
    ((s.bucket i).hv ≠ 0 ∧ (s.bucket i).hv ≠ hv) ↔
      (s.slot i).isSome ∧ s.slot i ≠ some hv := by
  rw [CrownStore.slot_eq]
  by_cases hzero : (s.bucket i).hv = 0
  · rw [hzero, reservedFor_zero]
    simp
  · rw [reservedFor_of_ne hzero]
    simp only [Option.isSome_some, ne_eq, Option.some.injEq, hzero, not_false_eq_true]

theorem passed_of_past (hs : s.WellFormed k) {q : ℕ} (hroom : occupied (2 ^ k) s.slot < 2 ^ k)
    (hbit : q = 0 ∨ ∃ p, q = p + 1 ∧ s.near (hv.toNat % 2 ^ k) p)
    (hno : ∀ p, s.near (hv.toNat % 2 ^ k) p → s.slot (pos (2 ^ k) hv.toNat p) ≠ some hv)
    (hle : q ≤ 64) {e : ℕ} (he : e < q) :
    (s.slot (pos (2 ^ k) (hv.toNat % 2 ^ k) e)).isSome ∧
      s.slot (pos (2 ^ k) (hv.toNat % 2 ^ k) e) ≠ some hv := by
  rcases hbit with rfl | ⟨p, rfl, hp⟩
  · omega
  · refine ⟨hs.maps.dense hp e (by omega), fun hslot => ?_⟩
    have hlt := hs.maps.marked_lt hroom hp
    rw [Probing.pos_mod] at hslot
    exact hno e (hs.maps.complete (by omega) (by omega) hslot) hslot

/-- What the map leads to is within its width. -/
theorem mapLoop_hit {orig n i : ℕ} {map : BitVec 64} {next : ℕ}
    (h : s.mapLoop hv orig n map next = .hit i) :
    ∃ p < 64, i = (orig + p) &&& s.lastSlot ∧ (s.bucket i).hv = hv := by
  induction n generalizing map next with
  | zero => cases h
  | succ n ih =>
    rw [CrownStore.mapLoop] at h
    split at h
    · cases h
    · rename_i hmap
      split at h
      · rename_i hhit
        obtain rfl := MapProbe.hit.inj h
        exact ⟨clz map, getMsbD_lt (clz_spec hmap).1, rfl, hhit⟩
      · exact ih h

/-- A search is blocked inside of the table. -/
theorem Blocked.lt (hlast : s.lastSlot = 2 ^ k - 1) (hroom : occupied (2 ^ k) s.slot < 2 ^ k)
    (h : Blocked s hv i) : i < 2 ^ k := by
  by_contra hge
  have hrun : ∀ e < 2 ^ k, (s.slot (pos (2 ^ k) (hv.toNat % 2 ^ k) e)).isSome := by
    intro e he
    have hbusy := h.2.1 e (by omega)
    rw [along_eq hlast] at hbusy
    exact ((hv_iff_slot _).mp hbusy).1
  have hle := Probing.run_le_occupied le_rfl hrun
  omega

/-- **A clear way** is walked to its end. -/
theorem findHelp_clear (hs : s.WellFormed k) (h : hv ≠ 0) (hroom : occupied (2 ^ k) s.slot < 2 ^ k)
    (hclear : Clear s hv) (fuel : ℕ) : findHelp (fuel + 3) s hv = some (s.findHelp hv) := by
  obtain ⟨r, hr⟩ : ∃ r, findHelp (fuel + 3) s hv = some r := by
    rw [← Option.isSome_iff_exists]
    rcases hs.probeMap_spec h with ⟨i, hi, _⟩ | ⟨q, hq, hle, hbit, hno⟩
    · simp [findHelp, hi]
    · have hfind : findHelp (fuel + 3) s hv =
          scanHelp (fuel + 3) hv (hv.toNat % 2 ^ k) (s.lastSlot + 1 - q) s q
            (pos (2 ^ k) (hv.toNat % 2 ^ k) q) := by
        simp [findHelp, hq, hs.lastSlot, bucketIndex_eq, pos]
      rw [hfind]
      refine scanHelp_isSome hs.lastSlot fuel _ q fun j hqj hj hbusy => ?_
      intro hhome
      refine hclear j ⟨hj, fun e he => ?_, ?_⟩
      · rw [along_eq hs.lastSlot]
        rcases Nat.lt_or_ge e q with hlt | hge
        · exact (hv_iff_slot _).mpr (passed_of_past hs hroom hbit hno hle hlt)
        · exact hbusy e hge he
      · rw [along_eq hs.lastSlot, hhome, hs.lastSlot, bucketIndex_eq]
  rw [hr, findHelp_eq_some hr]

/-- **A blocked way** is not. -/
theorem findHelp_blocked (hs : s.WellFormed k) (h : hv ≠ 0)
    (hroom : occupied (2 ^ k) s.slot < 2 ^ k) {j : ℕ} (hblocked : Blocked s hv j) (fuel : ℕ) :
    findHelp fuel s hv = none := by
  have hlt := hblocked.lt hs.lastSlot hroom
  obtain ⟨hj, hbusy, hhome⟩ := hblocked
  rcases hs.probeMap_spec h with ⟨i, hi, _⟩ | ⟨q, hq, hle, _, _⟩
  · -- the value would stand before the bucket
    obtain ⟨p, hp, rfl, hsame⟩ := mapLoop_hit hi
    exact absurd hsame (hbusy p (by omega)).2
  · have hfind : findHelp fuel s hv =
        scanHelp fuel hv (hv.toNat % 2 ^ k) (2 ^ k - q) s q
          (pos (2 ^ k) (hv.toNat % 2 ^ k) q) := by
      simp [findHelp, hq, hs.lastSlot, bucketIndex_eq, pos, Nat.sub_add_cancel Nat.one_le_two_pow]
    rw [hfind]
    refine scanHelp_blocked hs.lastSlot fuel _ q j (by omega) (by omega) hj ?_ ?_
    · intro e _ he
      rw [← along_eq hs.lastSlot]
      exact hbusy e he
    · rw [← along_eq hs.lastSlot, hhome, hs.lastSlot, bucketIndex_eq]

/-! ## Migration -/

/-- A hash claims the first free bucket of its way. -/
theorem claim (hs : s.WellFormed k) (h : hv ≠ 0) (habs : s.records hv = none) {d : ℕ}
    (hd : d < 2 ^ k) (hrun : ∀ e < d, (s.slot (pos (2 ^ k) hv.toNat e)).isSome)
    (hfree : s.slot (pos (2 ^ k) hv.toNat d) = none) :
    (setBit (s.setHv (pos (2 ^ k) hv.toNat d) hv) (hv.toNat % 2 ^ k) d).WellFormed k ∧
      (setBit (s.setHv (pos (2 ^ k) hv.toNat d) hv) (hv.toNat % 2 ^ k) d).slot =
        Function.update s.slot (pos (2 ^ k) hv.toNat d) (some hv) ∧
      occupied (2 ^ k) (setBit (s.setHv (pos (2 ^ k) hv.toNat d) hv) (hv.toNat % 2 ^ k) d).slot =
        occupied (2 ^ k) s.slot + 1 ∧
      ∀ hv', (setBit (s.setHv (pos (2 ^ k) hv.toNat d) hv) (hv.toNat % 2 ^ k) d).records hv' =
        if hv' = hv then some {} else s.records hv' := by
  rcases Nat.lt_or_ge d 64 with hlt | hge
  · rw [setBit_of_lt hlt]
    exact hs.claim h habs hd hrun hfree
  · rw [setBit_of_ge hge]
    obtain ⟨_, hslots, hocc, hrecords⟩ := hs.toSound.setHv h habs hd hrun hfree
    exact ⟨hs.claim_far h habs hd hge hrun hfree, hslots, hocc, hrecords⟩

theorem moves_moveBucket (k : ℕ) : CrownStore.Moves moveBucket k := by
  refine ⟨fun s b hmoved => by simp [moveBucket, hmoved], fun s b hs h hlive habs hroom => ?_⟩
  obtain ⟨d, hd, hscan, hrun, hfree⟩ := hs.scan_absent habs hroom
  obtain ⟨hclaim, hslots, hocc, hrecords⟩ := claim hs h habs hd hrun hfree
  have hslot : (setBit (s.setHv (pos (2 ^ k) b.hv.toNat d) b.hv) (b.hv.toNat % 2 ^ k) d).slot
      (pos (2 ^ k) b.hv.toNat d) = some b.hv := by
    rw [hslots, Function.update_self]
  obtain ⟨hset, hslots', hrecords'⟩ :=
    hclaim.adopt hslot (by rw [hrecords, if_pos rfl]) b.record
  have hmove : moveBucket s b =
      (setBit (s.setHv (pos (2 ^ k) b.hv.toNat d) b.hv) (b.hv.toNat % 2 ^ k) d).adopt
        (pos (2 ^ k) b.hv.toNat d) b.record := by
    simp [moveBucket, hlive, hs.lastSlot, bucketIndex_eq, Nat.sub_add_cancel Nat.one_le_two_pow,
      hscan]
  rw [hmove]
  refine ⟨hset, by rw [hslots', hocc], fun hv => ?_⟩
  rw [hrecords', hrecords]
  split <;> rfl

variable {t t' : Crown} {M : OrderedMap}

/-- A migration represents the same records in a larger store. -/
theorem migrate_spec (hk : minSizeLog ≤ k) (hs : t.storeCurrent.Sound k) (hn : 0 < t.nextEpoch)
    (hM : Models t.look t.nextEpoch t.itemCount M) :
    ∃ k', Represents (migrate t) M k' ∧
      (migrate t).storeCurrent.usedCount < (migrate t).storeCurrent.threshold := by
  obtain ⟨k', s', hs', hrep, hroom⟩ := Crown.moved_represents hk hs hn hM moves_moveBucket
  have hmigrate : migrate t =
      { t with storeCurrent := { s' with usedCount := t.storeCurrent.liveCount } } := by
    rw [← hs']
    rfl
  rw [hmigrate]
  exact ⟨k', hrep, hroom⟩

variable {b : CrownBucket}

theorem moveBucket_mark (hidle : b.record.moving = false)
    (hmoved : b.record.moved = false) (s : CrownStore) :
    moveBucket s (CrownStore.mark b) =
      (b.movedEntry.map fun e => moveBucket s { hv := e.1, record := e.2 }).getD s := by
  by_cases he : b.record.epoch = 0
  · simp [moveBucket, CrownStore.mark, hidle, he, CrownBucket.movedEntry]
  · simp [moveBucket, CrownStore.mark, hidle, hmoved, he, CrownBucket.movedEntry,
      CrownStore.adopt]

/-- What migrates depends on the live entries only. -/
theorem migrate_congr (hidle : ∀ b ∈ t.storeCurrent.buckets,
      b.record.moving = false ∧ b.record.moved = false)
    (hidle' : ∀ b ∈ t'.storeCurrent.buckets, b.record.moving = false ∧ b.record.moved = false)
    (hentries : t'.storeCurrent.buckets.map CrownBucket.movedEntry =
      t.storeCurrent.buckets.map CrownBucket.movedEntry)
    (hlast : t'.storeCurrent.lastSlot = t.storeCurrent.lastSlot)
    (hhelp : t'.helpNeeded = t.helpNeeded) :
    (migrate t').storeCurrent = (migrate t).storeCurrent := by
  have hfold : ∀ (L : List CrownBucket),
      (∀ b ∈ L, b.record.moving = false ∧ b.record.moved = false) → ∀ s : CrownStore,
      (L.map CrownStore.mark).foldl moveBucket s =
        (L.map CrownBucket.movedEntry).foldl
          (fun s e => (e.map fun e => moveBucket s { hv := e.1, record := e.2 }).getD s) s := by
    intro L hL
    induction L with
    | nil => exact fun _ => rfl
    | cons b L ih =>
      intro s
      obtain ⟨hmoving, hmoved⟩ := hL b List.mem_cons_self
      rw [List.map_cons, List.map_cons, List.foldl_cons, List.foldl_cons,
        moveBucket_mark hmoving hmoved, ih fun b hb => hL b (List.mem_cons_of_mem _ hb)]
  have hcount : ∀ L : List CrownBucket, (L.countP fun b => b.record.epoch ≠ 0) =
      (L.map CrownBucket.movedEntry).countP Option.isSome := by
    intro L
    rw [List.countP_map]
    refine List.countP_congr fun b _ => ?_
    by_cases he : b.record.epoch = 0 <;> simp [CrownBucket.movedEntry, he]
  unfold migrate
  simp only [hlast, hhelp, hcount, hentries, hfold _ hidle, hfold _ hidle']

/-! ## What helping and reserving leave of a store -/

theorem map_movedEntry_setBucket (s : CrownStore) (i : ℕ)
    (h : b.movedEntry = (s.bucket i).movedEntry) :
    (s.setBucket i b).buckets.map CrownBucket.movedEntry =
      s.buckets.map CrownBucket.movedEntry := by
  rw [CrownStore.setBucket, List.map_set, h]
  refine List.ext_getElem? fun j => ?_
  rw [List.getElem?_set]
  split
  · rename_i hj
    subst hj
    split
    · rename_i hlt
      rw [List.length_map] at hlt
      simp [CrownStore.bucket, hlt]
    · rename_i hge
      rw [List.getElem?_eq_none (Nat.le_of_not_lt hge)]
  · rfl

theorem map_movedEntry_scanHelp (n i bix orig : ℕ) :
    (s.scanHelp hv orig n i bix).1.buckets.map CrownBucket.movedEntry =
      s.buckets.map CrownBucket.movedEntry := by
  induction n generalizing s i bix with
  | zero => rfl
  | succ n ih =>
    rw [CrownStore.scanHelp]
    split
    · rfl
    · split
      · rfl
      · rw [ih]
        split
        · exact map_movedEntry_setBucket s orig rfl
        · rfl

/-- Helping leaves the entries that migrate. -/
theorem map_movedEntry_findHelp (s : CrownStore) (hv : Hash) :
    (s.findHelp hv).1.buckets.map CrownBucket.movedEntry =
      s.buckets.map CrownBucket.movedEntry := by
  unfold CrownStore.findHelp
  split
  · rfl
  · exact map_movedEntry_scanHelp _ _ _ _

/-! ## Reserving a bucket -/

theorem idle_of_mem (hs : s.Sound k) (hb : b ∈ s.buckets) :
    b.record.moving = false ∧ b.record.moved = false := by
  obtain ⟨i, rfl⟩ := CrownStore.exists_bucket hb
  exact hs.idle i

/-- Reserving a bucket on a clear way gives one, or a table that is full. -/
theorem Represents.reserve_spec (ht : Represents t M k) (h : hv ≠ 0)
    (hclear : Clear t.storeCurrent hv) (fuel : ℕ) :
    (∃ t' i, reserve (fuel + 3) t hv = some (t', some i) ∧ Represents t' M k ∧
      t'.storeCurrent.slot i = some hv ∧ (t.storeCurrent.records hv = none →
        t.storeCurrent.usedCount < t.storeCurrent.threshold)) ∨
    ∃ t', reserve (fuel + 3) t hv = some (t', none) ∧ t.storeCurrent.records hv = none ∧
      t.storeCurrent.threshold ≤ t.storeCurrent.usedCount ∧ t'.storeCurrent.Sound k ∧
      0 < t'.nextEpoch ∧ Models t'.look t'.nextEpoch t'.itemCount M ∧
      (migrate t').storeCurrent = (migrate t).storeCurrent := by
  have hroom := ht.occupied_lt
  have hfind := findHelp_clear ht.store h (by omega) hclear fuel
  obtain ⟨s, hhelp, hs, ha⟩ := ht.store.findHelp_spec h
  obtain ⟨hrep, hlook⟩ := ht.alike hs ha
  rw [hhelp] at hfind
  cases hr : t.storeCurrent.records hv with
  | some r =>
    obtain ⟨i, hi, hslot, _⟩ := ht.store.find_hit (n := 2 ^ k) h (by omega) (by omega) hr
    rw [hi] at hfind
    refine .inl ⟨{ t with storeCurrent := s }, i, by simp [reserve, hfind], hrep, ?_, by simp⟩
    show s.slot i = some hv
    rw [ha.slot, hslot]
  | none =>
    obtain ⟨d, hd, hi, hrun, hfree⟩ :=
      ht.store.find_free (n := 2 ^ k) h le_rfl (by omega) hr
    rw [hi] at hfind
    rw [← ha.slot] at hrun hfree
    have habs : s.records hv = none := by rw [ha.records, hr]
    by_cases hfull : s.threshold ≤ s.usedCount
    · obtain ⟨hsound, _, _, hrecords⟩ := hs.toSound.setHv h habs hd hrun hfree
      have hsame := Crown.look_reserve (t := { t with storeCurrent := s }) habs hrecords
        (s.usedCount + 1)
      rw [hlook] at hsame
      have hsound' : { s.setHv (pos (2 ^ k) hv.toNat d) hv with
          usedCount := s.usedCount + 1 }.Sound k :=
        ⟨hsound.buckets, hsound.lastSlot, hsound.threshold, hsound.idle, hsound.blank⟩
      -- a bucket that nobody has reserved has no record to move
      have hblank : (s.bucket (pos (2 ^ k) hv.toNat d)).record.epoch = 0 := by
        rw [CrownStore.slot_eq, reservedFor_eq_none] at hfree
        rw [hs.blank _ hfree]
      have hentries : (s.setHv (pos (2 ^ k) hv.toNat d) hv).buckets.map CrownBucket.movedEntry =
          t.storeCurrent.buckets.map CrownBucket.movedEntry := by
        rw [CrownStore.setHv, map_movedEntry_setBucket s _ (by
          simp [CrownBucket.movedEntry, hblank])]
        have hmaps := map_movedEntry_findHelp t.storeCurrent hv
        rwa [hhelp] at hmaps
      refine .inr ⟨{ t with storeCurrent :=
          { s.setHv (pos (2 ^ k) hv.toNat d) hv with usedCount := s.usedCount + 1 } },
        by simp [reserve, hfind, hfull], rfl, ?_, hsound', ht.numbered, ?_, ?_⟩
      · rw [← ha.threshold, ← ha.usedCount]
        exact hfull
      · show Models (Crown.look _) t.nextEpoch t.itemCount M
        rw [hsame]
        exact ht.models
      · exact migrate_congr (fun b hb => idle_of_mem ht.store.toSound hb)
          (fun b hb => idle_of_mem hsound' hb) hentries
          (hsound'.lastSlot.trans ht.store.lastSlot.symm) rfl
    · obtain ⟨hclaim, hslots, hocc, hrecords⟩ := claim hs h habs hd hrun hfree
      have hsame := Crown.look_reserve (t := { t with storeCurrent := s }) habs hrecords
        (s.usedCount + 1)
      refine .inl ⟨{ t with storeCurrent :=
          { setBit (s.setHv (pos (2 ^ k) hv.toNat d) hv) (hv.toNat % 2 ^ k) d with
            usedCount := s.usedCount + 1 } }, pos (2 ^ k) hv.toNat d, ?_, ?_, ?_, fun _ => ?_⟩
      · simp [reserve, hfind, hfull, hs.lastSlot, bucketIndex_eq]
        rfl
      · refine ⟨ht.log_ge, ⟨⟨hclaim.buckets, hclaim.lastSlot, hclaim.threshold, hclaim.idle,
          hclaim.blank⟩, hclaim.maps⟩, ?_, ?_, ht.numbered, ?_⟩
        · show s.usedCount + 1 = _
          rw [hrep.used]
          exact hocc.symm
        · exact Nat.lt_of_not_le hfull
        · show Models (Crown.look _) t.nextEpoch t.itemCount M
          rw [hsame, hlook]
          exact ht.models
      · exact (congrFun hslots _).trans (Function.update_self _ _ _)
      · rw [← ha.threshold, ← ha.usedCount]
        exact Nat.lt_of_not_le hfull

/-- With room in the table it gives one. -/
theorem Represents.reserve_room (ht : Represents t M k) (h : hv ≠ 0)
    (hclear : Clear t.storeCurrent hv)
    (hroom : t.storeCurrent.usedCount < t.storeCurrent.threshold) (fuel : ℕ) :
    ∃ t' i, reserve (fuel + 3) t hv = some (t', some i) ∧ Represents t' M k ∧
      t'.storeCurrent.slot i = some hv := by
  rcases Represents.reserve_spec ht h hclear fuel with
    ⟨t', i, hres, hrep, hslot, _⟩ | ⟨_, _, _, hfull, _⟩
  · exact ⟨t', i, hres, hrep, hslot⟩
  · omega

/-! ## Insertions -/

theorem Represents.with_bucket {ρ : Type} (ht : Represents t M k) (h : hv ≠ 0)
    (hway : ClearWay t hv) (fuel : ℕ) (step : ℕ → ℕ → Crown → Option (Crown × ρ))
    (Q : Crown → Prop)
    (hfull : ∀ n c t t', reserve (fuel + 3) t hv = some (t', none) →
      step (n + 1) c t = retry (step n) c t')
    (hfound : ∀ t t' k i, reserve (fuel + 3) t hv = some (t', some i) → Represents t' M k →
      t'.storeCurrent.slot i = some hv → ∃ t'' r, (∀ n c, step (n + 1) c t = some (t'', r)) ∧ Q t'')
    (n : ℕ) : ∃ t' r, step (n + 2) 0 t = some (t', r) ∧ Q t' := by
  rcases Represents.reserve_spec ht h hway.1 fuel with
    ⟨t', i, hres, hrep, hslot, _⟩ | ⟨t', hres, habs, hge, hs, hn, hM, hsame⟩
  · obtain ⟨t'', r, hstep, hQ⟩ := hfound t t' k i hres hrep hslot
    exact ⟨t'', r, hstep _ _, hQ⟩
  · obtain ⟨k', hrep, hroom⟩ := migrate_spec ht.log_ge hs hn hM
    have hretry : step (n + 2) 0 t = step (n + 1) 1 (migrate t') := by
      rw [hfull _ _ _ _ hres, retry, if_neg (by decide)]
    have hclear := hway.2 habs hge
    rw [← hsame] at hclear
    obtain ⟨t₁, i, hres₁, hrep₁, hslot⟩ := Represents.reserve_room hrep h hclear hroom fuel
    obtain ⟨t'', r, hstep, hQ⟩ := hfound _ t₁ k' i hres₁ hrep₁ hslot
    exact ⟨t'', r, by rw [hretry, hstep], hQ⟩

def Insertion.after (M : OrderedMap) : Insertion → OrderedMap
  | .put hv item => M.put hv item
  | .add hv item => if (M.lookup hv).isSome then M else M.put hv item

variable {op : Insertion}

/-- **An operation whose way is clear** does what it does on the map. -/
theorem Represents.exec_spec (ht : Represents t M k) (h : op.hv ≠ 0)
    (hway : ClearWay t op.hv) (fuel n : ℕ) :
    ∃ t', exec (fuel + 3) (n + 2) t op = some t' ∧ ∃ k, Represents t' (op.after M) k := by
  cases op with
  | put hv item =>
    change hv ≠ 0 at h
    replace hway : ClearWay t hv := hway
    obtain ⟨t', r, hput, hrep⟩ := Represents.with_bucket ht h hway fuel
      (storePut (fuel + 3) hv item) (fun t' => ∃ k, Represents t' (M.put hv item) k)
      (fun n c t t' hres => by simp only [storePut, hres])
      (fun t t' k i hres ht' hslot => by
        have hidle := ht'.idle i
        rcases ht'.record_cases hslot with ⟨he, habs⟩ | ⟨he, _⟩
        · exact ⟨t'.insertAt i item, (null, false), fun n c => by
            simp [storePut, hres, hidle, he], k, ht'.insertAt hslot habs item⟩
        · exact ⟨t'.overwriteAt i item, ((t'.storeCurrent.bucket i).record.item, true),
            fun n c => by simp [storePut, hres, hidle, he], k, ht'.overwriteAt hslot he item⟩) n
    exact ⟨t', by simp [exec, hput], hrep⟩
  | add hv item =>
    change hv ≠ 0 at h
    replace hway : ClearWay t hv := hway
    obtain ⟨t', r, hadd, hrep⟩ := Represents.with_bucket ht h hway fuel
      (storeAdd (fuel + 3) hv item)
      (fun t' => ∃ k, Represents t' (Insertion.after M (.add hv item)) k)
      (fun n c t t' hres => by simp only [storeAdd, hres])
      (fun t t' k i hres ht' hslot => by
        have hidle := ht'.idle i
        rcases ht'.record_cases hslot with ⟨he, habs⟩ | ⟨he, hpres⟩
        · refine ⟨t'.insertAt i item, true, fun n c => by
            simp [storeAdd, hres, hidle, he], k, ?_⟩
          simpa [Insertion.after, ht'.lookup_absent habs] using ht'.insertAt hslot habs item
        · refine ⟨t', false, fun n c => by simp [storeAdd, hres, hidle, he], k, ?_⟩
          simpa [Insertion.after, ht'.lookup_present hpres] using ht') n
    exact ⟨t', by simp [exec, hadd], hrep⟩

/-- Reserving does not depend on the number of passes. -/
theorem reserve_eq (fuel : ℕ) {fuel' : ℕ}
    (h : findHelp fuel' t.storeCurrent hv = some (t.storeCurrent.findHelp hv)) :
    reserve fuel t hv = none ∨ reserve fuel t hv = reserve fuel' t hv := by
  cases hfind : findHelp fuel t.storeCurrent hv with
  | none => exact .inl (by simp [reserve, hfind])
  | some r =>
    rw [findHelp_eq_some hfind] at hfind
    exact .inr (by simp only [reserve, hfind, h])

/-- Reserving on a blocked way does not return. -/
theorem Represents.reserve_blocked (ht : Represents t M k) (h : hv ≠ 0)
    (hnot : ¬Clear t.storeCurrent hv) (fuel : ℕ) : reserve fuel t hv = none := by
  have hroom := ht.occupied_lt
  obtain ⟨j, hj⟩ := not_forall_not.mp hnot
  simp [reserve, findHelp_blocked ht.store h (by omega) hj]

/-- On a way that is not clear it does not return, or only to migrate and not to return then. -/
theorem Represents.reserve_cases (ht : Represents t M k) (h : hv ≠ 0) (hway : ¬ClearWay t hv)
    (fuel : ℕ) :
    reserve fuel t hv = none ∨
      ∃ t', reserve fuel t hv = some (t', none) ∧ reserve fuel (migrate t') hv = none := by
  have hroom := ht.occupied_lt
  by_cases hclear : Clear t.storeCurrent hv
  · obtain ⟨habs, hfull, hnot⟩ : t.storeCurrent.records hv = none ∧
        t.storeCurrent.threshold ≤ t.storeCurrent.usedCount ∧
        ¬Clear (migrate t).storeCurrent hv := by
      simpa [ClearWay, hclear] using hway
    rcases reserve_eq fuel (findHelp_clear ht.store h (by omega) hclear 0) with hno | heq
    · exact .inl hno
    · rcases Represents.reserve_spec ht h hclear 0 with
        ⟨_, _, _, _, _, hlt⟩ | ⟨t', hres, _, _, hs, hn, hM, hsame⟩
      · exact absurd (hlt habs) (Nat.not_lt.mpr hfull)
      · obtain ⟨k', hrep, _⟩ := migrate_spec ht.log_ge hs hn hM
        refine .inr ⟨t', heq.trans hres, Represents.reserve_blocked hrep h ?_ fuel⟩
        rwa [hsame]
  · exact .inl (Represents.reserve_blocked ht h hclear fuel)

/-- **An operation whose way is not clear** does not return. -/
theorem Represents.exec_blocked (ht : Represents t M k) (h : op.hv ≠ 0)
    (hway : ¬ClearWay t op.hv) (fuel n : ℕ) : exec fuel n t op = none := by
  have hcases := Represents.reserve_cases ht h hway fuel
  -- an operation that begins with a reservation, and retries
  have hnever : ∀ {ρ : Type} (step : ℕ → ℕ → Crown → Option (Crown × ρ)),
      (∀ c t, step 0 c t = none) →
      (∀ n c t, reserve fuel t op.hv = none → step (n + 1) c t = none) →
      (∀ n c t t', reserve fuel t op.hv = some (t', none) →
        step (n + 1) c t = retry (step n) c t') → step n 0 t = none := by
    intro ρ step hzero hnone hretry
    cases n with
    | zero => exact hzero 0 t
    | succ n =>
      rcases hcases with hno | ⟨t', hres, hno⟩
      · exact hnone n 0 t hno
      · rw [hretry n 0 t t' hres, retry, if_neg (by decide)]
        cases n with
        | zero => exact hzero _ _
        | succ n => exact hnone n _ _ hno
  cases op with
  | put hv item =>
    have hput := hnever (storePut fuel hv item) (fun _ _ => rfl)
      (fun n c t hno => by
        change reserve fuel t hv = none at hno
        simp only [storePut, hno])
      (fun n c t t' hres => by
        change reserve fuel t hv = _ at hres
        simp only [storePut, hres])
    rw [exec, hput]
    rfl
  | add hv item =>
    have hadd := hnever (storeAdd fuel hv item) (fun _ _ => rfl)
      (fun n c t hno => by
        change reserve fuel t hv = none at hno
        simp only [storeAdd, hno])
      (fun n c t t' hres => by
        change reserve fuel t hv = _ at hres
        simp only [storeAdd, hres])
    rw [exec, hadd]
    rfl

/-! ## Runs -/

/-- An insertion returns, and a lookup finds what is stored. -/
def Returns (t : Crown) (op : Insertion) : Prop :=
  ∃ fuel n t', exec fuel n t op = some t' ∧ t'.storeCurrent.get op.hv = (stored t op, true)

/-- An operation returns just if its way is clear. -/
theorem Represents.returns_iff (ht : Represents t M k) (h : op.hv ≠ 0) :
    Returns t op ↔ ClearWay t op.hv := by
  constructor
  · rintro ⟨fuel, n, t', hexec, _⟩
    by_contra hway
    rw [Represents.exec_blocked ht h hway] at hexec
    cases hexec
  · intro hway
    obtain ⟨t', hexec, k', hrep⟩ := Represents.exec_spec ht h hway 0 0
    refine ⟨3, 2, t', hexec, ?_⟩
    rw [hrep.store_get h]
    cases op with
    | put hv item =>
      simp [Insertion.after, Insertion.hv, stored, OrderedMap.lookup_put]
    | add hv item =>
      have hget := ht.store_get (show hv ≠ 0 from h)
      cases hlookup : M.lookup hv with
      | none =>
        simp [Insertion.after, Insertion.hv, stored, OrderedMap.lookup_put, hget, hlookup]
      | some x => simp [Insertion.after, Insertion.hv, stored, hget, hlookup]

/-- A table represents some records in every run. -/
theorem run_represents {size memory : ℕ} {t₀ : Crown}
    (hinit : Crown.initSize size memory = some t₀) (fuel n : ℕ)
    (hrun : Run (exec (fuel + 3) (n + 2)) (fun _ op => op.hv ≠ 0) t₀ t) :
    ∃ M k, Represents t M k := by
  refine hrun.invariant (I := fun t => ∃ M k, Represents t M k)
    ⟨[], size, (Crown.initSize_represents hinit).1⟩ ?_
  rintro t op u ⟨M, k, ht⟩ hop hexec
  have hway : ClearWay t op.hv := by
    by_contra hway
    rw [Represents.exec_blocked ht hop hway] at hexec
    cases hexec
  obtain ⟨t', hexec', k', hrep⟩ := Represents.exec_spec ht hop hway fuel n
  rw [hexec, Option.some.injEq] at hexec'
  exact ⟨op.after M, k', hexec' ▸ hrep⟩

/-- **After every sequence of insertions**, the next one returns, and what it stores is found,
exactly when its way is clear. -/
theorem run_returns_iff {size memory : ℕ} {t₀ : Crown}
    (hinit : Crown.initSize size memory = some t₀) (fuel n : ℕ)
    (hrun : Run (exec (fuel + 3) (n + 2)) (fun _ op => op.hv ≠ 0) t₀ t) {op : Insertion}
    (h : op.hv ≠ 0) : Returns t op ↔ ClearWay t op.hv := by
  obtain ⟨M, k, ht⟩ := run_represents hinit fuel n hrun
  exact Represents.returns_iff ht h

instance (s : CrownStore) (hv : Hash) (i : ℕ) : Decidable (Blocked s hv i) :=
  inferInstanceAs (Decidable (64 ≤ i ∧
    (∀ e ≤ i, (along s hv e).hv ≠ 0 ∧ (along s hv e).hv ≠ hv) ∧
    bucketIndex (along s hv i).hv s.lastSlot = bucketIndex hv s.lastSlot))

/-- Values for the first 64 buckets, and another one for the first of them. -/
def crowd : List Insertion :=
  (List.range 64).map (fun i => .put (BitVec.ofNat 128 (i + 128)) i) ++ [.put 256 64]

theorem crowd_blocks :
    ∃ t₀ t, Crown.initSize 7 0 = some t₀ ∧ crowd.foldlM (exec 3 2) t₀ = some t ∧
      Blocked t.storeCurrent 384 64 := by
  have hrun : ((Crown.initSize 7 0).bind fun t₀ => (crowd.foldlM (exec 3 2) t₀).map fun t =>
      decide (Blocked t.storeCurrent 384 64)) = some true := by decide +kernel
  obtain ⟨t₀, hinit, hmap⟩ := Option.bind_eq_some_iff.mp hrun
  obtain ⟨t, hfold, hblocked⟩ := Option.map_eq_some_iff.mp hmap
  exact ⟨t₀, t, hinit, hfold, of_decide_eq_true hblocked⟩

theorem crowd_run {t₀ t : Crown} (hfold : crowd.foldlM (exec 3 2) t₀ = some t) :
    Run (exec 3 2) (fun _ op => op.hv ≠ 0) t₀ t := by
  have hall : ∀ e ∈ crowd, e.hv ≠ 0 := by decide
  exact Run.of_foldlM (fun e he _ => hall e he) hfold

/-- **An insertion that never returns**: the next value of the home of the last one. -/
theorem not_returns_crowd :
    ∃ t₀ t, Crown.initSize 7 0 = some t₀ ∧ Run (exec 3 2) (fun _ op => op.hv ≠ 0) t₀ t ∧
      ¬Returns t (.put 384 65) := by
  obtain ⟨t₀, t, hinit, hfold, hblocked⟩ := crowd_blocks
  refine ⟨t₀, t, hinit, crowd_run hfold, ?_⟩
  rintro ⟨fuel, n, t', hexec, _⟩
  obtain ⟨M, k, ht⟩ := run_represents hinit 0 0 (crowd_run hfold)
  have hway : ¬ClearWay t (Insertion.put 384 65).hv := fun hway => hway.1 64 hblocked
  have hnever := Represents.exec_blocked ht (by decide) hway fuel n
  rw [hexec] at hnever
  cases hnever

theorem run_returns_iff_collision :
    ∃ t₀ t, Crown.initSize 4 0 = some t₀ ∧ exec 3 2 t₀ (.put 16 1) = some t ∧
      Returns t (.add 32 2) := by
  have hrun : ((Crown.initSize 4 0).bind fun t₀ => (exec 3 2 t₀ (.put 16 1)).map fun t =>
      decide ((along t.storeCurrent 32 1).hv = 0 ∧
        t.storeCurrent.usedCount < t.storeCurrent.threshold)) = some true := by decide
  obtain ⟨t₀, hinit, hmap⟩ := Option.bind_eq_some_iff.mp hrun
  obtain ⟨t, hexec, hdecide⟩ := Option.map_eq_some_iff.mp hmap
  obtain ⟨hfree, hroom⟩ := of_decide_eq_true hdecide
  have hone : Run (exec 3 2) (fun _ op => op.hv ≠ 0) t₀ t :=
    .tail (e := .put 16 1) .refl (by decide) hexec
  have hclear : Clear t.storeCurrent 32 := by
    rintro i ⟨hi, hbusy, _⟩
    exact (hbusy 1 (le_trans (by decide) hi)).1 hfree
  have hway : ClearWay t (Insertion.hv (.add 32 2)) :=
    ⟨hclear, fun _ hfull => absurd hroom (Nat.not_lt.mpr hfull)⟩
  exact ⟨t₀, t, hinit, hexec, (run_returns_iff hinit 0 0 hone (by decide)).mpr hway⟩

end N00b.Hatrack.ZeroShift
