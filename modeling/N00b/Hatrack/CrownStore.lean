import N00b.Lib.Neighborhood
import N00b.Hatrack.Crown

/-!
# A store of the table with a cache

The maps of a store are a cache for the walks of its buckets. So looking at the map and then probing
on is the walk over all buckets, and what the probes set in the maps keeps them a cache. A migration
fills a new store whose maps are again a cache.

## Main results

- `WellFormed.find_outcome`, `WellFormed.findHelp_spec`: a probe is the walk over the buckets.
- `WellFormed.claim`: a bucket is reserved, and its bit set.
- `Sound.moved`: a migration keeps the records in use, and drops the others.
-/

namespace N00b.Hatrack

open Probing (Outcome Buckets Neighborhood bucketOf occupied pos search slots)

/-! ## Maps -/

theorem homeBit_getMsbD (i : ℕ) : homeBit.getMsbD i = decide (i = 0) := by
  by_cases hi : i < 64
  · have hall : ∀ j < 64, homeBit.getMsbD j = decide (j = 0) := by decide
    exact hall i hi
  · rw [BitVec.getMsbD_of_ge _ _ (by omega)]
    simp [show i ≠ 0 by omega]

/-- The bit that is set for a distance is that distance modulo 64, counted from the left. -/
theorem homeShift_getMsbD (i p : ℕ) : (homeShift i).getMsbD p = decide (p = i % 64) := by
  rw [homeShift, BitVec.getMsbD_ushiftRight, homeBit_getMsbD]
  have hlt : i % 64 < 64 := Nat.mod_lt _ (by decide)
  by_cases h : p = i % 64
  · simp [h, hlt]
  · by_cases hle : p < i % 64
    · simp [hle, h]
    · have hne : p - i % 64 ≠ 0 := by omega
      simp [h, hne]

variable {map : BitVec 64}

theorem getMsbD_lt {p : ℕ} (h : map.getMsbD p = true) : p < 64 := by
  by_contra hge
  rw [BitVec.getMsbD_of_ge _ _ (by omega)] at h
  cases h

theorem eq_zero_of_getMsbD (h : ∀ p, map.getMsbD p = false) : map = 0 := by
  refine BitVec.eq_of_getMsbD_eq fun i _ => ?_
  rw [h]
  simp

/-- `CLZ` is the first bit that is set. -/
theorem clz_spec (h : map ≠ 0) :
    map.getMsbD (clz map) = true ∧ ∀ p < clz map, map.getMsbD p = false := by
  unfold clz
  cases hfind : (List.range 64).find? fun i => map.getMsbD i with
  | none =>
    refine absurd (eq_zero_of_getMsbD fun p => ?_) h
    cases hp : map.getMsbD p with
    | false => rfl
    | true =>
      have hno := List.find?_eq_none.mp hfind p (List.mem_range.mpr (getMsbD_lt hp))
      exact absurd hp hno
  | some c =>
    rw [List.find?_range_eq_some] at hfind
    exact ⟨hfind.1, fun p hp => by simpa using hfind.2.2 p hp⟩

/-- A bit that is cleared leaves the others. -/
theorem clear_getMsbD (map : BitVec 64) (i p : ℕ) :
    (map &&& ~~~homeShift i).getMsbD p = true ↔ map.getMsbD p = true ∧ p ≠ i % 64 := by
  rw [BitVec.getMsbD_and, BitVec.getMsbD_not, homeShift_getMsbD]
  constructor
  · intro h
    simp only [Bool.and_eq_true, Bool.not_eq_true', decide_eq_true_eq, decide_eq_false_iff_not] at h
    exact ⟨h.1, h.2.2⟩
  · rintro ⟨hp, hne⟩
    simp [hp, hne, getMsbD_lt hp]

namespace CrownBucket

/-- The hash value that a bucket is reserved for, as its key. -/
def key (b : CrownBucket) : Option Hash := reservedFor b.hv

theorem key_empty : key {} = none := reservedFor_zero

end CrownBucket

namespace CrownStore

/-! ## Buckets -/

def slot (s : CrownStore) : ℕ → Option Hash := slots CrownBucket.key s.buckets

/-- The record in the bucket of a hash value, if it has one. -/
def records (s : CrownStore) (hv : Hash) : Option CrownRecord :=
  (bucketOf CrownBucket.key s.buckets hv).map CrownBucket.record

/-- A distance is marked in the map of a position. -/
def near (s : CrownStore) (h p : ℕ) : Prop := (s.bucket h).neighborMap.getMsbD p = true

/-- What holds of the buckets of a store of `2 ^ k` buckets, but for the maps. -/
structure Sound (s : CrownStore) (k : ℕ) : Prop where
  buckets : Buckets CrownBucket.key BitVec.toNat (2 ^ k) s.buckets
  lastSlot : s.lastSlot = 2 ^ k - 1
  threshold : s.threshold = computeTableThreshold (2 ^ k)
  idle : ∀ i, (s.bucket i).record.moving = false ∧ (s.bucket i).record.moved = false
  blank : ∀ i, (s.bucket i).hv = 0 → (s.bucket i).record = {}

/-- What holds of a store between operations. -/
structure WellFormed (s : CrownStore) (k : ℕ) : Prop extends s.Sound k where
  maps : Neighborhood (2 ^ k) 64 BitVec.toNat s.slot s.near

variable {s : CrownStore} {k : ℕ} {hv : Hash}

variable {i : ℕ}

theorem bucket_setBucket_self (s : CrownStore) (hi : i < s.buckets.length)
    (b : CrownBucket) : (s.setBucket i b).bucket i = b := by
  simp [setBucket, bucket, List.getD_eq_getElem?_getD, hi]

/-- A store to one bucket leaves the others. -/
theorem bucket_setBucket_of_ne (s : CrownStore) {i j : ℕ} (hij : j ≠ i) (b : CrownBucket) :
    (s.setBucket i b).bucket j = s.bucket j := by
  simp [setBucket, bucket, List.getD_eq_getElem?_getD, Ne.symm hij]

theorem forall_bucket_setBucket {s : CrownStore} {b : CrownBucket}
    {P : CrownBucket → Prop} (hi : i < s.buckets.length) (hb : P b) (hs : ∀ j, P (s.bucket j))
    (j : ℕ) : P ((s.setBucket i b).bucket j) := by
  by_cases hij : j = i
  · rw [hij, bucket_setBucket_self s hi]
    exact hb
  · rw [bucket_setBucket_of_ne s hij]
    exact hs j

theorem getElem?_of_lt (s : CrownStore) (hi : i < s.buckets.length) :
    s.buckets[i]? = some (s.bucket i) := by
  simp [bucket, hi]

theorem slot_eq (s : CrownStore) (i : ℕ) : s.slot i = reservedFor (s.bucket i).hv := by
  cases h : s.buckets[i]? with
  | none => simp [slot, slots, bucket, h, reservedFor]
  | some b => simp [slot, slots, bucket, h, CrownBucket.key]

/-- A slot holds a hash just if its bucket does. -/
theorem slot_eq_some (h : hv ≠ 0) : s.slot i = some hv ↔ (s.bucket i).hv = hv := by
  rw [slot_eq, reservedFor_eq_some h]

theorem hv_of_slot (h : s.slot i = some hv) : (s.bucket i).hv = hv ∧ hv ≠ 0 := by
  rw [slot_eq] at h
  exact reservedFor_inv h

theorem records_eq_none : s.records hv = none ↔ bucketOf CrownBucket.key s.buckets hv = none := by
  simp [records]

theorem Sound.lt_length (hs : s.Sound k) (hi : i < 2 ^ k) : i < s.buckets.length := by
  rw [hs.buckets.length]
  exact hi

theorem Sound.lt_of_slot (hs : s.Sound k) (h : s.slot i = some hv) : i < 2 ^ k :=
  hs.buckets.lt h

/-- What is recorded for a hash is the record of its bucket. -/
theorem Sound.records_of_slot (hs : s.Sound k) (h : s.slot i = some hv) :
    s.records hv = some (s.bucket i).record := by
  have hget := getElem?_of_lt s (hs.lt_length (hs.lt_of_slot h))
  have hk : CrownBucket.key (s.bucket i) = some hv := by
    rw [← h, slot_eq]
    rfl
  rw [records, hs.buckets.bucketOf_eq hget hk]
  rfl

/-- A hash with a record has a bucket. -/
theorem Sound.slot_of_records (hs : s.Sound k) {r : CrownRecord} (h : s.records hv = some r) :
    ∃ i, s.slot i = some hv ∧ (s.bucket i).record = r := by
  obtain ⟨b, hb, rfl⟩ := Option.map_eq_some_iff.mp h
  obtain ⟨i, _, hget, hk, _⟩ := hs.buckets.search_hit hb
  have hslot : s.slot i = some hv := Probing.slots_eq_some.mpr ⟨b, hget, hk⟩
  refine ⟨i, hslot, ?_⟩
  rw [getElem?_of_lt s (hs.lt_length (hs.lt_of_slot hslot)), Option.some.injEq] at hget
  rw [hget]

/-- A bucket is replaced by one of the same hash. -/
theorem Sound.setBucket (hs : s.Sound k) (hslot : s.slot i = some hv) {b : CrownBucket}
    (hb : b.hv = hv) (hidle : b.record.moving = false ∧ b.record.moved = false) :
    (s.setBucket i b).Sound k ∧ (s.setBucket i b).slot = s.slot ∧
      ∀ hv', (s.setBucket i b).records hv' =
        if hv' = hv then some b.record else s.records hv' := by
  have hi := hs.lt_of_slot hslot
  have hne := (hv_of_slot hslot).2
  have hk : CrownBucket.key b = some hv := by rw [CrownBucket.key, hb, reservedFor_of_ne hne]
  obtain ⟨hbuckets, hslots, hset⟩ := hs.buckets.replace hslot hk
  refine ⟨⟨hbuckets, hs.lastSlot, hs.threshold, ?_, ?_⟩, hslots, fun hv' => ?_⟩
  · exact forall_bucket_setBucket
      (P := fun b => b.record.moving = false ∧ b.record.moved = false) (hs.lt_length hi) hidle hs.idle
  · exact forall_bucket_setBucket (P := fun b => b.hv = 0 → b.record = {}) (hs.lt_length hi)
      (fun hzero => absurd (hb.symm.trans hzero) hne) hs.blank
  · rw [records, CrownStore.setBucket, hset hv', apply_ite (Option.map CrownBucket.record)]
    rfl

/-! ## Writing records and bits -/

theorem near_setRecord (s : CrownStore) (hi : i < s.buckets.length) (r : CrownRecord) :
    (s.setRecord i r).near = s.near := by
  funext h p
  by_cases hij : h = i
  · simp [near, setRecord, hij, bucket_setBucket_self s hi]
  · simp [near, setRecord, bucket_setBucket_of_ne s hij]

/-- **A new record** in the bucket of a hash is the record of that hash, and of no other. -/
theorem WellFormed.setRecord (hs : s.WellFormed k) (hslot : s.slot i = some hv)
    {r : CrownRecord} (hidle : r.moving = false ∧ r.moved = false) :
    (s.setRecord i r).WellFormed k ∧ (s.setRecord i r).slot = s.slot ∧
      ∀ hv', (s.setRecord i r).records hv' = if hv' = hv then some r else s.records hv' := by
  have hb := (hv_of_slot hslot).1
  obtain ⟨hsound, hslots, hrecords⟩ :=
    hs.toSound.setBucket (b := { s.bucket i with record := r }) hslot hb hidle
  refine ⟨⟨hsound, ?_⟩, hslots, hrecords⟩
  show Neighborhood (2 ^ k) 64 BitVec.toNat (s.setRecord i r).slot (s.setRecord i r).near
  rw [near_setRecord s (hs.lt_length (hs.lt_of_slot hslot))]
  exact hslots ▸ hs.maps

/-- A bit that is set is one more distance at which the map looks. -/
theorem near_setBit (s : CrownStore) {orig : ℕ} (ho : orig < s.buckets.length) (i h p : ℕ) :
    (s.setBit orig i).near h p ↔ s.near h p ∨ h = orig ∧ p = i % 64 := by
  by_cases hij : h = orig
  · subst hij
    simp [near, setBit, bucket_setBucket_self s ho, homeShift_getMsbD]
  · simp [near, setBit, bucket_setBucket_of_ne s hij, hij]

theorem Sound.setBit (hs : s.Sound k) {orig : ℕ} (ho : (s.slot orig).isSome) (i : ℕ) :
    (s.setBit orig i).Sound k ∧ (s.setBit orig i).slot = s.slot ∧
      ∀ hv, (s.setBit orig i).records hv = s.records hv := by
  obtain ⟨hv₀, hslot⟩ := Option.isSome_iff_exists.mp ho
  obtain ⟨hsound, hslots, hrecords⟩ := hs.setBucket (b := { s.bucket orig with
    neighborMap := (s.bucket orig).neighborMap ||| homeShift i }) hslot (hv_of_slot hslot).1
    (hs.idle orig)
  refine ⟨hsound, hslots, fun hv => ?_⟩
  rw [CrownStore.setBit, hrecords]
  split
  · rename_i hsame
    rw [hsame, hs.records_of_slot hslot]
  · rfl

/-- Setting the bit of a distance keeps the store well formed, if no bucket on the way is free. -/
theorem WellFormed.setBit (hs : s.WellFormed k) {orig i : ℕ} (ho : orig < 2 ^ k)
    (hrun : ∀ e ≤ i, (s.slot (pos (2 ^ k) orig e)).isSome) :
    (s.setBit orig i).WellFormed k ∧ (s.setBit orig i).slot = s.slot ∧
      ∀ hv, (s.setBit orig i).records hv = s.records hv := by
  have hzero := hrun 0 (Nat.zero_le i)
  rw [Probing.pos_zero, Nat.mod_eq_of_lt ho] at hzero
  obtain ⟨hsound, hslots, hrecords⟩ := hs.toSound.setBit hzero i
  refine ⟨⟨hsound, ?_⟩, hslots, hrecords⟩
  rw [hslots]
  exact hs.maps.mark hrun fun h p => near_setBit s (hs.lt_length ho) i h p

theorem setHv_eq (hs : s.Sound k) (hfree : s.slot i = none) (hv : Hash) :
    s.setHv i hv = s.setBucket i { hv := hv, neighborMap := (s.bucket i).neighborMap } := by
  have hzero : (s.bucket i).hv = 0 := by
    rw [slot_eq] at hfree
    exact reservedFor_eq_none.mp hfree
  simp only [setHv, hs.blank i hzero]

/-- A hash is put into the first free bucket of its way. -/
theorem Sound.setHv (hs : s.Sound k) (h : hv ≠ 0) (habs : s.records hv = none) {d : ℕ}
    (hd : d < 2 ^ k) (hrun : ∀ e < d, (s.slot (pos (2 ^ k) hv.toNat e)).isSome)
    (hfree : s.slot (pos (2 ^ k) hv.toNat d) = none) :
    (s.setHv (pos (2 ^ k) hv.toNat d) hv).Sound k ∧
      (s.setHv (pos (2 ^ k) hv.toNat d) hv).slot =
        Function.update s.slot (pos (2 ^ k) hv.toNat d) (some hv) ∧
      occupied (2 ^ k) (s.setHv (pos (2 ^ k) hv.toNat d) hv).slot = occupied (2 ^ k) s.slot + 1 ∧
      ∀ hv', (s.setHv (pos (2 ^ k) hv.toNat d) hv).records hv' =
        if hv' = hv then some {} else s.records hv' := by
  have hlt : pos (2 ^ k) hv.toNat d < 2 ^ k := Probing.pos_lt (by positivity) _ _
  rw [setHv_eq hs hfree]
  have hk : CrownBucket.key
      { hv := hv, neighborMap := (s.bucket (pos (2 ^ k) hv.toNat d)).neighborMap } = some hv :=
    reservedFor_of_ne h
  obtain ⟨hbuckets, hocc, hset⟩ := hs.buckets.insert (records_eq_none.mp habs) hd hrun hfree hk
  refine ⟨⟨hbuckets, hs.lastSlot, hs.threshold, ?_, ?_⟩, ?_, hocc, fun hv' => ?_⟩
  · exact forall_bucket_setBucket
      (P := fun b => b.record.moving = false ∧ b.record.moved = false) (hs.lt_length hlt)
      ⟨rfl, rfl⟩ hs.idle
  · exact forall_bucket_setBucket (P := fun b => b.hv = 0 → b.record = {}) (hs.lt_length hlt)
      (fun _ => rfl) hs.blank
  · rw [← hk]
    exact Probing.slots_set (hs.lt_length hlt)
  · rw [records, CrownStore.setBucket, hset hv', apply_ite (Option.map CrownBucket.record)]
    rfl

theorem near_setHv (s : CrownStore) (hi : i < s.buckets.length) (hv : Hash) :
    (s.setHv i hv).near = s.near := by
  funext h p
  by_cases hij : h = i
  · simp [near, setHv, hij, bucket_setBucket_self s hi]
  · simp [near, setHv, bucket_setBucket_of_ne s hij]

/-- **A hash claims a bucket** and sets its bit. -/
theorem WellFormed.claim (hs : s.WellFormed k) (h : hv ≠ 0) (habs : s.records hv = none) {d : ℕ}
    (hd : d < 2 ^ k) (hrun : ∀ e < d, (s.slot (pos (2 ^ k) hv.toNat e)).isSome)
    (hfree : s.slot (pos (2 ^ k) hv.toNat d) = none) :
    ((s.setHv (pos (2 ^ k) hv.toNat d) hv).setBit (hv.toNat % 2 ^ k) d).WellFormed k ∧
      ((s.setHv (pos (2 ^ k) hv.toNat d) hv).setBit (hv.toNat % 2 ^ k) d).slot =
        Function.update s.slot (pos (2 ^ k) hv.toNat d) (some hv) ∧
      occupied (2 ^ k) ((s.setHv (pos (2 ^ k) hv.toNat d) hv).setBit (hv.toNat % 2 ^ k) d).slot =
        occupied (2 ^ k) s.slot + 1 ∧
      ∀ hv', ((s.setHv (pos (2 ^ k) hv.toNat d) hv).setBit (hv.toNat % 2 ^ k) d).records hv' =
        if hv' = hv then some {} else s.records hv' := by
  have hlt : pos (2 ^ k) hv.toNat d < 2 ^ k := Probing.pos_lt (by positivity) _ _
  have ho : hv.toNat % 2 ^ k < 2 ^ k := Nat.mod_lt _ (by positivity)
  obtain ⟨hsound, hslots, hocc, hrecords⟩ := hs.toSound.setHv h habs hd hrun hfree
  -- the home of the value is in use, by others or by now by the value
  have hhome : ((s.setHv (pos (2 ^ k) hv.toNat d) hv).slot (hv.toNat % 2 ^ k)).isSome := by
    rw [hslots]
    by_cases hpos : hv.toNat % 2 ^ k = pos (2 ^ k) hv.toNat d
    · rw [hpos, Function.update_self]
      rfl
    · rw [Function.update_of_ne hpos]
      refine hrun 0 (Nat.pos_of_ne_zero fun hd0 => hpos ?_)
      rw [hd0, Probing.pos_zero]
  obtain ⟨hsound', hslots', hrecords'⟩ := hsound.setBit hhome d
  refine ⟨⟨hsound', ?_⟩, hslots'.trans hslots, by rw [hslots', hocc], fun hv' => ?_⟩
  · rw [hslots', hslots]
    refine hs.maps.claim hd hrun fun h p => ?_
    rw [near_setBit _ (hsound.lt_length ho), near_setHv s (hs.lt_length hlt)]
  · rw [hrecords', hrecords]

/-- Beyond the width of the map no bit is needed. -/
theorem WellFormed.claim_far (hs : s.WellFormed k) (h : hv ≠ 0) (habs : s.records hv = none) {d : ℕ}
    (hd : d < 2 ^ k) (hfar : 64 ≤ d) (hrun : ∀ e < d, (s.slot (pos (2 ^ k) hv.toNat e)).isSome)
    (hfree : s.slot (pos (2 ^ k) hv.toNat d) = none) :
    (s.setHv (pos (2 ^ k) hv.toNat d) hv).WellFormed k := by
  have hlt : pos (2 ^ k) hv.toNat d < 2 ^ k := Probing.pos_lt (by positivity) _ _
  obtain ⟨hsound, hslots, _, _⟩ := hs.toSound.setHv h habs hd hrun hfree
  refine ⟨hsound, ?_⟩
  rw [hslots, near_setHv s (hs.lt_length hlt)]
  exact hs.maps.claim_far hd hfar

/-! ## Looking for a value -/

theorem hv_eq (s : CrownStore) (i : ℕ) : (s.bucket i).hv = (s.slot i).getD 0 := by
  rw [slot_eq, reservedFor]
  split
  · rename_i hzero
    exact hzero
  · rfl

/-- The loop over the map finds the hash, or goes past all its bits. -/
theorem mapLoop_spec (hlast : s.lastSlot = 2 ^ k - 1) (h : hv ≠ 0) (orig n lo : ℕ)
    (map : BitVec 64) (next : ℕ) (hlo : ∀ p, map.getMsbD p = true → lo ≤ p) (hn : 64 ≤ lo + n) :
    (∃ i, s.mapLoop hv orig n map next = .hit i ∧ s.slot i = some hv) ∨
    ∃ q, s.mapLoop hv orig n map next = .past q ∧
      (q = next ∨ ∃ p, q = p + 1 ∧ map.getMsbD p = true) ∧
      ∀ p, map.getMsbD p = true → s.slot (pos (2 ^ k) orig p) ≠ some hv := by
  induction n generalizing lo map next with
  | zero =>
    refine .inr ⟨next, rfl, .inl rfl, fun p hp => ?_⟩
    have hle := hlo p hp
    have hlt := getMsbD_lt hp
    omega
  | succ n ih =>
    rw [mapLoop]
    by_cases hmap : map = 0
    · refine .inr ⟨next, by rw [if_pos hmap], .inl rfl, fun p hp => ?_⟩
      rw [hmap] at hp
      simp at hp
    · obtain ⟨hfirst, hbefore⟩ := clz_spec hmap
      have hc := getMsbD_lt hfirst
      have hpos : (orig + clz map) &&& s.lastSlot = pos (2 ^ k) orig (clz map) := by
        rw [hlast, and_lastSlot]
        rfl
      rw [if_neg hmap, hpos]
      by_cases hhit : (s.bucket (pos (2 ^ k) orig (clz map))).hv = hv
      · exact .inl ⟨_, by rw [if_pos hhit], (slot_eq_some h).mpr hhit⟩
      · rw [if_neg hhit]
        -- the bits behind the first one are left
        have hlo' : ∀ p, (map &&& ~~~homeShift (clz map)).getMsbD p = true → clz map + 1 ≤ p := by
          intro p hp
          obtain ⟨hp, hne⟩ := (clear_getMsbD map _ p).mp hp
          rw [Nat.mod_eq_of_lt hc] at hne
          by_contra hsmall
          rw [hbefore p (by omega)] at hp
          cases hp
        have hle := hlo _ hfirst
        rcases ih (clz map + 1) _ (clz map + 1) hlo' (by omega) with hfound | ⟨q, hq, hbit, hno⟩
        · exact .inl hfound
        · refine .inr ⟨q, hq, ?_, fun p hp => ?_⟩
          · rcases hbit with rfl | ⟨p, rfl, hp⟩
            · exact .inr ⟨_, rfl, hfirst⟩
            · exact .inr ⟨p, rfl, ((clear_getMsbD map _ p).mp hp).1⟩
          · by_cases hpc : p = clz map
            · rw [hpc]
              exact fun hslot => hhit (hv_of_slot hslot).1
            · refine hno p ((clear_getMsbD map _ p).mpr ⟨hp, ?_⟩)
              rwa [Nat.mod_eq_of_lt hc]

/-- **The map of neighbours** leads to the hash, or to the bucket behind the last one that it knows.
-/
theorem Sound.probeMap_spec (hs : s.Sound k) (h : hv ≠ 0) :
    (∃ i, s.probeMap hv = .hit i ∧ s.slot i = some hv) ∨
    ∃ q, s.probeMap hv = .past q ∧ q ≤ 64 ∧
      (q = 0 ∨ ∃ p, q = p + 1 ∧ s.near (hv.toNat % 2 ^ k) p) ∧
      ∀ p, s.near (hv.toNat % 2 ^ k) p → s.slot (pos (2 ^ k) hv.toNat p) ≠ some hv := by
  have hmap := mapLoop_spec hs.lastSlot h (hv.toNat % 2 ^ k) 64 0
    (s.bucket (hv.toNat % 2 ^ k)).neighborMap 0 (fun _ _ => Nat.zero_le _) le_rfl
  rw [probeMap, hs.lastSlot, bucketIndex_eq]
  rcases hmap with hfound | ⟨q, hq, hbit, hno⟩
  · exact .inl hfound
  · refine .inr ⟨q, hq, ?_, hbit, fun p hp => ?_⟩
    · rcases hbit with rfl | ⟨p, rfl, hp⟩
      · omega
      · exact getMsbD_lt hp
    · have hother := hno p hp
      rwa [Probing.pos_mod] at hother

end CrownStore

def CrownProbe.outcome : CrownProbe → Outcome
  | .hit bix => .hit bix
  | .free bix _ => .free bix
  | .exhausted => .exhausted

namespace CrownStore

variable {s : CrownStore} {k : ℕ} {hv : Hash}

/-- The scan from a bucket on is the search of linear probing. -/
theorem scan_outcome (hlast : s.lastSlot = 2 ^ k - 1) (n i bix : ℕ) :
    (s.scan hv n i bix).outcome = search (2 ^ k) s.slot hv n bix := by
  induction n generalizing i bix with
  | zero => rfl
  | succ n ih =>
    rw [scan]
    have hslot := slot_eq s bix
    by_cases hzero : (s.bucket bix).hv = 0
    · rw [hzero, reservedFor_zero] at hslot
      rw [if_pos hzero, Probing.search_stop hslot]
      rfl
    · rw [reservedFor_of_ne hzero] at hslot
      rw [if_neg hzero]
      by_cases hsame : (s.bucket bix).hv = hv
      · rw [hsame] at hslot
        rw [if_pos hsame, Probing.search_here hslot]
        rfl
      · rw [if_neg hsame, Probing.search_next hslot hsame, ih, hlast, and_lastSlot]

/-- The free bucket of a scan lies on the way of the hash. -/
theorem scan_free (hlast : s.lastSlot = 2 ^ k - 1) {orig n i j d : ℕ}
    (hscan : s.scan hv n i (pos (2 ^ k) orig i) = .free j d) :
    j = pos (2 ^ k) orig d ∧ i ≤ d ∧ d < i + n := by
  induction n generalizing i with
  | zero => cases hscan
  | succ n ih =>
    rw [scan] at hscan
    split at hscan
    · obtain ⟨rfl, rfl⟩ := CrownProbe.free.inj hscan
      exact ⟨rfl, le_rfl, by omega⟩
    · split at hscan
      · cases hscan
      · rw [hlast, and_lastSlot, Probing.pos_succ] at hscan
        obtain ⟨hj, hle, hd⟩ := ih hscan
        exact ⟨hj, by omega, by omega⟩

theorem Sound.search_hit (hs : s.Sound k) {i n : ℕ} (hslot : s.slot i = some hv)
    (hn : occupied (2 ^ k) s.slot ≤ n) :
    search (2 ^ k) s.slot hv n (hv.toNat % 2 ^ k) = .hit i :=
  hs.buckets.chained.search_hit (hs.lt_of_slot hslot) hslot hn

theorem find_of_hit {i n : ℕ} (hmap : s.probeMap hv = .hit i) : s.find hv n = .hit i := by
  simp [find, hmap]

theorem Sound.find_of_past (hs : s.Sound k) {q n : ℕ} (hmap : s.probeMap hv = .past q) :
    s.find hv n = s.scan hv (n - q) q (pos (2 ^ k) (hv.toNat % 2 ^ k) q) := by
  simp [find, hmap, hs.lastSlot, bucketIndex_eq, pos]

variable {n : ℕ}

/-- **Looking a hash up** with the map finds what linear probing finds. -/
theorem WellFormed.find_outcome (hs : s.WellFormed k) (h : hv ≠ 0)
    (hroom : occupied (2 ^ k) s.slot < 2 ^ k) (hn : occupied (2 ^ k) s.slot ≤ n) :
    (s.find hv n).outcome = search (2 ^ k) s.slot hv n (hv.toNat % 2 ^ k) := by
  rcases hs.probeMap_spec h with ⟨i, hi, hslot⟩ | ⟨q, hq, hle, hbit, hno⟩
  · rw [find_of_hit hi, hs.search_hit hslot hn]
    rfl
  · obtain ⟨_, hpast⟩ := hs.maps.search_past hroom hn hle hbit hno
    rw [hs.find_of_past hq, hpast, scan_outcome hs.lastSlot, Probing.pos_mod]

/-- A hash that is there is found with its record. -/
theorem WellFormed.find_hit (hs : s.WellFormed k) (h : hv ≠ 0)
    (hroom : occupied (2 ^ k) s.slot < 2 ^ k) (hn : occupied (2 ^ k) s.slot ≤ n) {r : CrownRecord}
    (hr : s.records hv = some r) :
    ∃ i, s.find hv n = .hit i ∧ s.slot i = some hv ∧ (s.bucket i).record = r := by
  obtain ⟨i, hslot, hrec⟩ := hs.slot_of_records hr
  have hout := hs.find_outcome h hroom hn
  rw [hs.search_hit hslot hn] at hout
  cases hfind : s.find hv n with
  | hit j =>
    rw [hfind] at hout
    obtain rfl : j = i := Outcome.hit.inj hout
    exact ⟨j, rfl, hslot, hrec⟩
  | free j d | exhausted =>
    rw [hfind] at hout
    cases hout

/-- A free bucket that is found lies on the way of the hash. -/
theorem Sound.find_pos (hs : s.Sound k) (h : hv ≠ 0) {n j d : ℕ}
    (hfind : s.find hv n = .free j d) : j = pos (2 ^ k) hv.toNat d ∧ d < n := by
  rcases hs.probeMap_spec h with ⟨i, hi, _⟩ | ⟨q, hq, _⟩
  · rw [find_of_hit hi] at hfind
    cases hfind
  · rw [hs.find_of_past hq] at hfind
    obtain ⟨hj, hle, hd⟩ := scan_free hs.lastSlot hfind
    rw [Probing.pos_mod] at hj
    exact ⟨hj, by omega⟩

/-- A hash that is not there is led to the first free bucket of its way. -/
theorem Sound.free_of_outcome (hs : s.Sound k) (habs : s.records hv = none)
    (hnm : n ≤ 2 ^ k) (hn : occupied (2 ^ k) s.slot < n) {r : CrownProbe}
    (hout : r.outcome = search (2 ^ k) s.slot hv n (hv.toNat % 2 ^ k))
    (hdist : ∀ j d, r = .free j d → j = pos (2 ^ k) hv.toNat d ∧ d < n) :
    ∃ d < 2 ^ k, r = .free (pos (2 ^ k) hv.toNat d) d ∧
      (∀ e < d, (s.slot (pos (2 ^ k) hv.toNat e)).isSome) ∧
      s.slot (pos (2 ^ k) hv.toNat d) = none := by
  obtain ⟨d, hd, hfree, hrun, hsearch⟩ :=
    hs.buckets.search_free (records_eq_none.mp habs) hn hnm
  rw [show search (2 ^ k) s.slot hv n (hv.toNat % 2 ^ k) = _ from hsearch] at hout
  cases r with
  | hit j => cases hout
  | free j d' =>
    obtain ⟨hj, hd'⟩ := hdist j d' rfl
    -- the same bucket, so the same distance
    have hpos : pos (2 ^ k) hv.toNat d' = pos (2 ^ k) hv.toNat d :=
      hj.symm.trans (Outcome.free.inj hout)
    obtain rfl := Probing.pos_inj (by omega) hd hpos
    exact ⟨d', hd, by rw [hj], hrun, hfree⟩
  | exhausted => cases hout

/-- **A hash that is not there** is led to the first free bucket, and all before it are taken. -/
theorem WellFormed.find_free (hs : s.WellFormed k) (h : hv ≠ 0) (hnm : n ≤ 2 ^ k)
    (hn : occupied (2 ^ k) s.slot < n) (habs : s.records hv = none) :
    ∃ d < 2 ^ k, s.find hv n = .free (pos (2 ^ k) hv.toNat d) d ∧
      (∀ e < d, (s.slot (pos (2 ^ k) hv.toNat e)).isSome) ∧
      s.slot (pos (2 ^ k) hv.toNat d) = none :=
  hs.free_of_outcome habs hnm hn (hs.find_outcome h (hn.trans_le hnm) hn.le)
    fun _ _ hfind => hs.find_pos h hfind

/-! ## Setting bits while looking -/

/-- Two stores that differ in their maps only. -/
structure Alike (s s' : CrownStore) : Prop where
  slot : s'.slot = s.slot
  records : ∀ hv, s'.records hv = s.records hv
  lastSlot : s'.lastSlot = s.lastSlot
  threshold : s'.threshold = s.threshold
  usedCount : s'.usedCount = s.usedCount

theorem Alike.refl (s : CrownStore) : Alike s s := ⟨rfl, fun _ => rfl, rfl, rfl, rfl⟩

theorem Alike.trans {s₁ s₂ s₃ : CrownStore} (h₁ : Alike s₁ s₂) (h₂ : Alike s₂ s₃) : Alike s₁ s₃ where
  slot := h₂.slot.trans h₁.slot
  records hv := (h₂.records hv).trans (h₁.records hv)
  lastSlot := h₂.lastSlot.trans h₁.lastSlot
  threshold := h₂.threshold.trans h₁.threshold
  usedCount := h₂.usedCount.trans h₁.usedCount

theorem Alike.scan_eq {s s' : CrownStore} (ha : Alike s s') (hv : Hash) (n i bix : ℕ) :
    s'.scan hv n i bix = s.scan hv n i bix := by
  induction n generalizing i bix with
  | zero => rfl
  | succ n ih => rw [scan, scan, hv_eq, ha.slot, ← hv_eq, ha.lastSlot, ih]

/-- Helping sets bits on the way, and finds what the scan finds. -/
theorem WellFormed.scanHelp_spec (hs : s.WellFormed k) (hv : Hash) {orig : ℕ} (ho : orig < 2 ^ k)
    (n : ℕ) {i : ℕ} (hrun : ∀ e < i, (s.slot (pos (2 ^ k) orig e)).isSome) :
    ∃ s', s.scanHelp hv orig n i (pos (2 ^ k) orig i) =
        (s', s.scan hv n i (pos (2 ^ k) orig i)) ∧ s'.WellFormed k ∧ Alike s s' := by
  induction n generalizing s i with
  | zero => exact ⟨s, rfl, hs, .refl s⟩
  | succ n ih =>
    rw [scanHelp, scan]
    by_cases hzero : (s.bucket (pos (2 ^ k) orig i)).hv = 0
    · exact ⟨s, by simp [hzero], hs, .refl s⟩
    · rw [if_neg hzero, if_neg hzero]
      by_cases hsame : (s.bucket (pos (2 ^ k) orig i)).hv = hv
      · exact ⟨s, by simp [hsame], hs, .refl s⟩
      · rw [if_neg hsame, if_neg hsame]
        -- the bucket is in use, so its bit may be set
        have hrun' : ∀ e ≤ i, (s.slot (pos (2 ^ k) orig e)).isSome := by
          intro e he
          rcases Nat.lt_or_eq_of_le he with hlt | rfl
          · exact hrun e hlt
          · rw [slot_eq, reservedFor_of_ne hzero]
            rfl
        obtain ⟨s₁, hs₁, hwf₁, ha₁⟩ : ∃ s₁,
            (if bucketIndex (s.bucket (pos (2 ^ k) orig i)).hv s.lastSlot = orig
              then s.setBit orig i else s) = s₁ ∧ s₁.WellFormed k ∧ Alike s s₁ := by
          refine ⟨_, rfl, ?_⟩
          split
          · obtain ⟨hwf, hslot, hrecords⟩ := hs.setBit ho hrun'
            exact ⟨hwf, hslot, hrecords, rfl, rfl, rfl⟩
          · exact ⟨hs, .refl s⟩
        obtain ⟨s₂, hs₂, hwf₂, ha₂⟩ := @ih s₁ hwf₁ (i + 1) fun e he => by
          rw [ha₁.slot]
          exact hrun' e (by omega)
        refine ⟨s₂, ?_, hwf₂, ha₁.trans ha₂⟩
        rw [hs₁, hs.lastSlot, and_lastSlot, Probing.pos_succ, hs₂, ha₁.scan_eq]

theorem Sound.findHelp_of_past (hs : s.Sound k) {q : ℕ} (hmap : s.probeMap hv = .past q) :
    s.findHelp hv = s.scanHelp hv (hv.toNat % 2 ^ k) (2 ^ k - q) q
      (pos (2 ^ k) (hv.toNat % 2 ^ k) q) := by
  simp [findHelp, hmap, hs.lastSlot, bucketIndex_eq, pos, Nat.sub_add_cancel Nat.one_le_two_pow]

/-- **Helping changes nothing** that is looked up. -/
theorem WellFormed.findHelp_spec (hs : s.WellFormed k) (h : hv ≠ 0) :
    ∃ s', s.findHelp hv = (s', s.find hv (2 ^ k)) ∧ s'.WellFormed k ∧ Alike s s' := by
  have ho : hv.toNat % 2 ^ k < 2 ^ k := Nat.mod_lt _ (by positivity)
  rcases hs.probeMap_spec h with ⟨i, hi, _⟩ | ⟨q, hq, _, hbit, _⟩
  · exact ⟨s, by simp [findHelp, find, hi], hs, .refl s⟩
  · have hrun : ∀ e < q, (s.slot (pos (2 ^ k) (hv.toNat % 2 ^ k) e)).isSome := by
      rcases hbit with rfl | ⟨p, rfl, hp⟩
      · intro e he
        omega
      · exact fun e he => hs.maps.dense hp e (by omega)
    obtain ⟨s', hs', hwf, ha⟩ := hs.scanHelp_spec hv ho (2 ^ k - q) hrun
    exact ⟨s', by rw [hs.findHelp_of_past hq, hs.find_of_past hq, hs'], hwf, ha⟩

/-! ## Migration -/

theorem bucket_new (size i : ℕ) : (new size).bucket i = {} := by
  rw [bucket, new, List.getD_eq_getElem?_getD, List.getElem?_replicate]
  split <;> rfl

theorem slot_new (size i : ℕ) : (new size).slot i = none :=
  Probing.slots_replicate CrownBucket.key_empty size i

theorem records_new (size : ℕ) (hv : Hash) : (new size).records hv = none :=
  records_eq_none.mpr (Probing.bucketOf_replicate CrownBucket.key_empty size hv)

/-- A new store is well formed, and empty. -/
theorem new_wellFormed (k : ℕ) : (new (2 ^ k)).WellFormed k where
  buckets := Probing.buckets_replicate _ CrownBucket.key_empty _
  lastSlot := rfl
  threshold := rfl
  idle i := by rw [bucket_new]; exact ⟨rfl, rfl⟩
  blank i _ := by rw [bucket_new]
  maps := Probing.neighborhood_empty (slot_new _) fun h p => by simp [near, bucket_new]

/-- The scan from the home bucket on ends at a free one, if there is any. -/
theorem Sound.scan_absent (hs : s.Sound k) (habs : s.records hv = none)
    (hroom : occupied (2 ^ k) s.slot < 2 ^ k) :
    ∃ d, d < 2 ^ k ∧
      s.scan hv (2 ^ k) 0 (hv.toNat % 2 ^ k) = .free (pos (2 ^ k) hv.toNat d) d ∧
      (∀ e < d, (s.slot (pos (2 ^ k) hv.toNat e)).isSome) ∧
      s.slot (pos (2 ^ k) hv.toNat d) = none :=
  hs.free_of_outcome habs le_rfl hroom (scan_outcome hs.lastSlot (2 ^ k) 0 (hv.toNat % 2 ^ k))
    fun j d hscan => by
      have hhome : hv.toNat % 2 ^ k = pos (2 ^ k) hv.toNat 0 := rfl
      rw [hhome] at hscan
      obtain ⟨hj, _, hlt⟩ := scan_free hs.lastSlot hscan
      exact ⟨hj, by omega⟩

/-- A migration puts the record of a hash into the bucket that it has claimed. -/
theorem WellFormed.adopt (hs : s.WellFormed k) {i : ℕ} (hslot : s.slot i = some hv)
    (hblank : s.records hv = some {}) (r : CrownRecord) :
    (s.adopt i r).WellFormed k ∧ (s.adopt i r).slot = s.slot ∧
      ∀ hv', (s.adopt i r).records hv' =
        if hv' = hv then some { item := r.item, epoch := r.epoch } else s.records hv' := by
  have hempty := hs.records_of_slot hslot
  rw [hblank, Option.some.injEq] at hempty
  have hadopt : s.adopt i r = s.setRecord i { item := r.item, epoch := r.epoch } := by
    simp [CrownStore.adopt, ← hempty]
  rw [hadopt]
  exact hs.setRecord hslot ⟨rfl, rfl⟩

/-- **A bucket is moved** to the new store: one more hash, with its record. -/
theorem WellFormed.moveBucket (hs : s.WellFormed k) {b : CrownBucket} (h : b.hv ≠ 0)
    (hlive : b.record.moved = false) (habs : s.records b.hv = none)
    (hroom : occupied (2 ^ k) s.slot < 2 ^ k) :
    (s.moveBucket b).WellFormed k ∧
      occupied (2 ^ k) (s.moveBucket b).slot = occupied (2 ^ k) s.slot + 1 ∧
      ∀ hv, (s.moveBucket b).records hv =
        if hv = b.hv then some { item := b.record.item, epoch := b.record.epoch }
        else s.records hv := by
  obtain ⟨d, hd, hscan, hrun, hfree⟩ := hs.scan_absent habs hroom
  obtain ⟨hclaim, hslots, hocc, hrecords⟩ := hs.claim h habs hd hrun hfree
  have hslot : ((s.setHv (pos (2 ^ k) b.hv.toNat d) b.hv).setBit (b.hv.toNat % 2 ^ k) d).slot
      (pos (2 ^ k) b.hv.toNat d) = some b.hv := by
    rw [hslots, Function.update_self]
  obtain ⟨hset, hslots', hrecords'⟩ :=
    hclaim.adopt hslot (by rw [hrecords, if_pos rfl]) b.record
  have hmove : s.moveBucket b =
      ((s.setHv (pos (2 ^ k) b.hv.toNat d) b.hv).setBit (b.hv.toNat % 2 ^ k) d).adopt
        (pos (2 ^ k) b.hv.toNat d) b.record := by
    simp [CrownStore.moveBucket, hlive, hs.lastSlot, bucketIndex_eq,
      Nat.sub_add_cancel Nat.one_le_two_pow, hscan]
  rw [hmove]
  refine ⟨hset, by rw [hslots', hocc], fun hv => ?_⟩
  rw [hrecords', hrecords]
  split <;> rfl

end CrownStore

def CrownRecord.live (r : CrownRecord) : Option (Item × ℕ) := liveEntry r.item r.epoch

/-- What a bucket holds for a migration: its hash value, and the record without its flags. -/
def CrownBucket.movedEntry (b : CrownBucket) : Option (Hash × CrownRecord) :=
  if b.record.epoch = 0 then none
  else some (b.hv, { item := b.record.item, epoch := b.record.epoch })

theorem CrownBucket.movedEntry_eq_some {b : CrownBucket} {e : Hash × CrownRecord} :
    b.movedEntry = some e ↔ b.record.epoch ≠ 0 ∧
      (b.hv, ({ item := b.record.item, epoch := b.record.epoch } : CrownRecord)) = e := by
  simp [CrownBucket.movedEntry]

theorem CrownBucket.movedEntry_eq_none {b : CrownBucket} :
    b.movedEntry = none ↔ b.record.epoch = 0 := by
  simp [CrownBucket.movedEntry]

namespace CrownStore

variable {s : CrownStore} {k : ℕ} {hv : Hash}

def liveCount (s : CrownStore) : ℕ := s.buckets.countP fun b => b.record.epoch ≠ 0

/-- As many entries are moved as are live. -/
theorem length_movedEntry (s : CrownStore) :
    (s.buckets.filterMap CrownBucket.movedEntry).length = s.liveCount := by
  rw [List.length_filterMap_eq_countP]
  refine List.countP_congr fun b _ => ?_
  by_cases he : b.record.epoch = 0
  · simp [CrownBucket.movedEntry, he]
  · simp [CrownBucket.movedEntry, he]

variable {b : CrownBucket}

theorem exists_bucket (hb : b ∈ s.buckets) : ∃ i, s.bucket i = b := by
  obtain ⟨i, hi⟩ := List.mem_iff_getElem?.mp hb
  exact ⟨i, by simp [bucket, hi]⟩

theorem Sound.hv_ne (hs : s.Sound k) (hb : b ∈ s.buckets)
    (he : b.record.epoch ≠ 0) : b.hv ≠ 0 := by
  obtain ⟨i, rfl⟩ := exists_bucket hb
  intro hzero
  rw [hs.blank i hzero] at he
  exact he rfl

theorem Sound.mark_eq (hs : s.Sound k) (hb : b ∈ s.buckets) :
    (mark b).hv = b.hv ∧ (mark b).record.item = b.record.item ∧
      (mark b).record.epoch = b.record.epoch ∧
      (mark b).record.moved = decide (b.record.epoch = 0) := by
  obtain ⟨i, rfl⟩ := exists_bucket hb
  obtain ⟨hmoving, hmoved⟩ := hs.idle i
  by_cases he : (s.bucket i).record.epoch = 0
  · simp [mark, hmoving, he]
  · simp [mark, hmoving, hmoved, he]

/-- The entries that are moved are those of the live hashes, each once. -/
theorem Sound.movedEntries (hs : s.Sound k) :
    ((s.buckets.filterMap CrownBucket.movedEntry).map Prod.fst).Nodup ∧
      ∀ e, e ∈ s.buckets.filterMap CrownBucket.movedEntry ↔
        (bucketOf CrownBucket.key s.buckets e.1).bind CrownBucket.movedEntry = some e :=
  hs.buckets.entries_spec _ Prod.fst fun b hb e he => by
    obtain ⟨hepoch, rfl⟩ := CrownBucket.movedEntry_eq_some.mp he
    exact reservedFor_of_ne (hs.hv_ne hb hepoch)

/-- A way to move the record of a bucket, of one that is not moved already, to a bucket that nobody
has reserved. -/
def Moves (move : CrownStore → CrownBucket → CrownStore) (k : ℕ) : Prop :=
  (∀ s b, b.record.moved = true → move s b = s) ∧
  ∀ s b, WellFormed s k → b.hv ≠ 0 → b.record.moved = false → s.records b.hv = none →
    occupied (2 ^ k) s.slot < 2 ^ k →
    (move s b).WellFormed k ∧ occupied (2 ^ k) (move s b).slot = occupied (2 ^ k) s.slot + 1 ∧
      ∀ hv, (move s b).records hv =
        if hv = b.hv then some { item := b.record.item, epoch := b.record.epoch }
        else s.records hv

theorem moves_moveBucket (k : ℕ) : Moves moveBucket k :=
  ⟨fun s b hmoved => by simp [CrownStore.moveBucket, hmoved],
    fun _ _ hs h hlive habs hroom => hs.moveBucket h hlive habs hroom⟩

/-- **A migration** gives a store with the live records, and no others. -/
theorem Sound.moved (hs : s.Sound k) {m : ℕ} (hroom : s.liveCount ≤ 2 ^ m)
    {move : CrownStore → CrownBucket → CrownStore} (hmoves : Moves move m) :
    ∃ s', (s.buckets.map mark).foldl move (new (2 ^ m)) = s' ∧ s'.WellFormed m ∧
      occupied (2 ^ m) s'.slot = s.liveCount ∧
      ∀ hv, (s'.records hv).bind CrownRecord.live = (s.records hv).bind CrownRecord.live := by
  obtain ⟨hnodup, hmem⟩ := hs.movedEntries
  have hempty : occupied (2 ^ m) (new (2 ^ m)).slot = 0 :=
    Probing.occupied_eq_zero fun i _ => slot_new _ i
  obtain ⟨hwf, hocc, hin, hout⟩ := Probing.foldl_insert (fun s => s.WellFormed m)
    (fun s => occupied (2 ^ m) s.slot) records (fun s b => move s (mark b))
    CrownBucket.movedEntry (2 ^ m) s.buckets
    (fun b hb hnone s' => by
      obtain ⟨_, _, _, hmoved⟩ := hs.mark_eq hb
      exact hmoves.1 s' _ (by simp [hmoved, CrownBucket.movedEntry_eq_none.mp hnone]))
    (fun b hb hv r he s' hs' hlt habs => by
      obtain ⟨hepoch, heq⟩ := CrownBucket.movedEntry_eq_some.mp he
      obtain ⟨rfl, rfl⟩ := Prod.mk.inj heq
      obtain ⟨hhv, hitem, hnumber, hmoved⟩ := hs.mark_eq hb
      have hmove := hmoves.2 s' (mark b) hs' (by rw [hhv]; exact hs.hv_ne hb hepoch)
        (by rw [hmoved, decide_eq_false hepoch]) (by rw [hhv]; exact habs) hlt
      rwa [hhv, hitem, hnumber] at hmove)
    (new_wellFormed m) hnodup (fun e _ => records_new _ e.1)
    (by rw [hempty, length_movedEntry]; omega)
  rw [List.foldl_map]
  refine ⟨_, rfl, hwf, by rw [hocc, hempty, length_movedEntry, Nat.zero_add], fun hv => ?_⟩
  -- what the bucket of the value has to move
  cases hb : (bucketOf CrownBucket.key s.buckets hv).bind CrownBucket.movedEntry with
  | none =>
    have hgone : hv ∉ (s.buckets.filterMap CrownBucket.movedEntry).map Prod.fst := by
      intro hmap
      obtain ⟨e, he, rfl⟩ := List.mem_map.mp hmap
      rw [(hmem e).mp he] at hb
      cases hb
    rw [hout hv hgone, records_new, records]
    cases hbucket : bucketOf CrownBucket.key s.buckets hv with
    | none => rfl
    | some b =>
      rw [hbucket, Option.bind_some, CrownBucket.movedEntry_eq_none] at hb
      simp [CrownRecord.live, hb]
  | some e =>
    obtain ⟨b, hbucket, he⟩ := Option.bind_eq_some_iff.mp hb
    obtain ⟨_, rfl⟩ := CrownBucket.movedEntry_eq_some.mp he
    obtain ⟨_, hk⟩ := hs.buckets.bucketOf_iff.mp hbucket
    obtain ⟨hhv, _⟩ := reservedFor_inv hk
    subst hhv
    have hmoved := hin (b.hv, _) ((hmem (b.hv, _)).mpr hb)
    simp only at hmoved
    rw [hmoved, records, hbucket]
    rfl

end CrownStore

end N00b.Hatrack
