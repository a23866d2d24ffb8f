import N00b.Hatrack.CrownStore

/-!
# The table with a cache is an ordered map

A table between operations is a well formed store, whose records in use are the entries of a map. An
operation that reserves a bucket does so before it looks at the record, and in a full store leaves
the bucket to a migration. The migration makes room, so the second try is the last one.

## Main results

- `Represents.migrate`, `migrate_spec`: a migration changes nothing, and leaves room.
- `Represents.reserve_spec`: the bucket of an operation, reserved if need be.
- `exec_spec`: what one operation does.
-/

namespace N00b.Hatrack

open Probing (Outcome bucketOf occupied pos)

namespace Crown

/-- The item of a hash value, with its number. -/
def look (t : Crown) (hv : Hash) : Option (Item × ℕ) :=
  (t.storeCurrent.records hv).bind CrownRecord.live

/-- The table, between operations, is this map. Its store has `2 ^ k` buckets. -/
structure Represents (t : Crown) (M : OrderedMap) (k : ℕ) : Prop where
  log_ge : minSizeLog ≤ k
  store : t.storeCurrent.WellFormed k
  used : t.storeCurrent.usedCount = occupied (2 ^ k) t.storeCurrent.slot
  room : t.storeCurrent.usedCount ≤ t.storeCurrent.threshold
  numbered : 0 < t.nextEpoch
  models : Models t.look t.nextEpoch t.itemCount M

variable {t t' : Crown} {M : OrderedMap} {k : ℕ} {hv : Hash}

/-- A bucket is free. -/
theorem Represents.occupied_lt (ht : Represents t M k) :
    occupied (2 ^ k) t.storeCurrent.slot < 2 ^ k - 1 := by
  have hlt := threshold_lt ht.log_ge
  have hroom := ht.room
  rw [ht.used, ht.store.threshold] at hroom
  omega

variable {i : ℕ} {s : CrownStore}

theorem look_of_slot (hs : s.Sound k) (hslot : s.slot i = some hv)
    (t : Crown) (ht : t.storeCurrent = s) : t.look hv = (s.bucket i).record.live := by
  rw [look, ht, hs.records_of_slot hslot]
  rfl

/-! ## Migration -/

/-- What a migration moves represents the same map. -/
theorem moved_represents (hk : minSizeLog ≤ k) (hs : t.storeCurrent.Sound k) (hn : 0 < t.nextEpoch)
    (hM : Models t.look t.nextEpoch t.itemCount M)
    {move : CrownStore → CrownBucket → CrownStore} (hmoves : ∀ m, CrownStore.Moves move m) :
    ∃ k' s', (t.storeCurrent.buckets.map CrownStore.mark).foldl move (CrownStore.new
        (if t.helpNeeded ≠ 0 then (t.storeCurrent.lastSlot + 1) <<< 1
          else hatrackNewSize t.storeCurrent.lastSlot t.storeCurrent.liveCount)) = s' ∧
      Represents { t with storeCurrent := { s' with usedCount := t.storeCurrent.liveCount } } M k' ∧
      t.storeCurrent.liveCount < s'.threshold := by
  have hle : t.storeCurrent.liveCount ≤ 2 ^ k + 1 := by
    rw [← hs.buckets.length]
    exact List.countP_le_length.trans (Nat.le_succ _)
  -- the size of the new store, twice that of the old one when there are threads to help
  obtain ⟨k', hk', hsize, hlt⟩ : ∃ k', minSizeLog ≤ k' ∧
      (if t.helpNeeded ≠ 0 then (t.storeCurrent.lastSlot + 1) <<< 1
        else hatrackNewSize t.storeCurrent.lastSlot t.storeCurrent.liveCount) = 2 ^ k' ∧
      t.storeCurrent.liveCount < computeTableThreshold (2 ^ k') := by
    rw [hs.lastSlot]
    by_cases hhelp : t.helpNeeded ≠ 0
    · obtain ⟨hsize, hlt⟩ := doubleSize_spec hk hle
      exact ⟨k + 1, by omega, by rw [if_pos hhelp, hsize], hlt⟩
    · rw [if_neg hhelp]
      exact newSize_spec hk hle
  have hthr := threshold_lt hk'
  obtain ⟨s', hs', hwf, hocc, hlook⟩ := hs.moved (by omega) (hmoves k')
  have hroom : t.storeCurrent.liveCount < s'.threshold := by rwa [hwf.threshold]
  refine ⟨k', s', by rw [hsize, hs'], ⟨hk', ⟨⟨hwf.buckets, hwf.lastSlot, hwf.threshold, hwf.idle,
    hwf.blank⟩, hwf.maps⟩, hocc.symm, hroom.le, hn, ?_⟩, hroom⟩
  have hsame : (fun hv => (s'.records hv).bind CrownRecord.live) = t.look := funext hlook
  show Models (fun hv => (s'.records hv).bind CrownRecord.live) _ _ M
  rw [hsame]
  exact hM

/-- **A migration** represents the same map in a larger store. -/
theorem migrate_spec (hk : minSizeLog ≤ k) (hs : t.storeCurrent.Sound k) (hn : 0 < t.nextEpoch)
    (hM : Models t.look t.nextEpoch t.itemCount M) :
    ∃ k', Represents t.migrate M k' ∧ t.migrate.nextEpoch = t.nextEpoch ∧
      t.migrate.storeCurrent.usedCount < t.migrate.storeCurrent.threshold := by
  obtain ⟨k', s', hs', hrep, hroom⟩ :=
    moved_represents hk hs hn hM CrownStore.moves_moveBucket
  have hmigrate : t.migrate =
      { t with storeCurrent := { s' with usedCount := t.storeCurrent.liveCount } } := by
    rw [← hs']
    rfl
  rw [hmigrate]
  exact ⟨k', hrep, rfl, hroom⟩

theorem Represents.migrate (ht : Represents t M k) :
    ∃ k', Represents t.migrate M k' ∧ t.migrate.nextEpoch = t.nextEpoch := by
  obtain ⟨k', hrep, hnext, _⟩ := migrate_spec ht.log_ge ht.store.toSound ht.numbered ht.models
  exact ⟨k', hrep, hnext⟩

theorem Represents.migrateFull (ht : Represents t M k) :
    ∃ k', Represents t.migrateFull M k' ∧ t.migrateFull.nextEpoch = t.nextEpoch := by
  rw [Crown.migrateFull]
  split
  · exact ht.migrate
  · exact ⟨k, ht, rfl⟩

/-! ## Reserving a bucket -/

/-- A store with more bits in its maps represents the same. -/
theorem Represents.alike (ht : Represents t M k) (hs : s.WellFormed k)
    (ha : t.storeCurrent.Alike s) :
    Represents { t with storeCurrent := s } M k ∧ { t with storeCurrent := s }.look = t.look := by
  have hlook : { t with storeCurrent := s }.look = t.look := by
    funext hv
    rw [look, look, ha.records]
  refine ⟨⟨ht.log_ge, hs, ?_, ?_, ht.numbered, ?_⟩, hlook⟩
  · show s.usedCount = occupied (2 ^ k) s.slot
    rw [ha.usedCount, ha.slot, ht.used]
  · show s.usedCount ≤ s.threshold
    rw [ha.usedCount, ha.threshold]
    exact ht.room
  · rw [hlook]
    exact ht.models

/-- A bucket that is reserved is no entry. -/
theorem look_reserve (habs : t.storeCurrent.records hv = none)
    (hrecords : ∀ hv', s.records hv' =
      if hv' = hv then some {} else t.storeCurrent.records hv') (n : ℕ) :
    { t with storeCurrent := { s with usedCount := n } }.look = t.look := by
  funext hv'
  show (s.records hv').bind CrownRecord.live = _
  rw [hrecords, look]
  split
  · rename_i hsame
    rw [hsame, habs]
    rfl
  · rfl

/-- Reserving gives the bucket of a hash, or a table that is full. -/
theorem Represents.reserve_spec (ht : Represents t M k) (h : hv ≠ 0) :
    (∃ t' i, t.reserve hv = (t', some i) ∧ Represents t' M k ∧ t'.storeCurrent.slot i = some hv ∧
      t'.nextEpoch = t.nextEpoch) ∨
    ∃ t', t.reserve hv = (t', none) ∧ t.storeCurrent.threshold ≤ t.storeCurrent.usedCount ∧
      t'.storeCurrent.Sound k ∧ t'.nextEpoch = t.nextEpoch ∧
      Models t'.look t'.nextEpoch t'.itemCount M := by
  have hroom := ht.occupied_lt
  obtain ⟨s, hfind, hs, ha⟩ := ht.store.findHelp_spec h
  obtain ⟨hrep, hlook⟩ := ht.alike hs ha
  cases hr : t.storeCurrent.records hv with
  | some r =>
    obtain ⟨i, hi, hslot, _⟩ := ht.store.find_hit (n := 2 ^ k) h (by omega) (by omega) hr
    refine .inl ⟨{ t with storeCurrent := s }, i, by simp [reserve, hfind, hi], hrep, ?_, rfl⟩
    show s.slot i = some hv
    rw [ha.slot, hslot]
  | none =>
    obtain ⟨d, hd, hi, hrun, hfree⟩ :=
      ht.store.find_free (n := 2 ^ k) h le_rfl (by omega) hr
    rw [← ha.slot] at hrun hfree
    have habs : s.records hv = none := by rw [ha.records, hr]
    by_cases hfull : s.threshold ≤ s.usedCount
    · -- the bucket is left to the migration
      obtain ⟨hsound, _, _, hrecords⟩ := hs.toSound.setHv h habs hd hrun hfree
      refine .inr ⟨{ t with storeCurrent :=
          { s.setHv (pos (2 ^ k) hv.toNat d) hv with usedCount := s.usedCount + 1 } },
        by simp [reserve, hfind, hi, hfull], ?_, ?_, rfl, ?_⟩
      · rw [← ha.threshold, ← ha.usedCount]
        exact hfull
      · exact ⟨hsound.buckets, hsound.lastSlot, hsound.threshold, hsound.idle, hsound.blank⟩
      · have hsame := look_reserve (t := { t with storeCurrent := s }) habs hrecords
          (s.usedCount + 1)
        rw [hlook] at hsame
        show Models (look _) t.nextEpoch t.itemCount M
        rw [hsame]
        exact ht.models
    · obtain ⟨hclaim, hslots, hocc, hrecords⟩ := hs.claim h habs hd hrun hfree
      have hsame := look_reserve (t := { t with storeCurrent := s }) habs hrecords
        (s.usedCount + 1)
      refine .inl ⟨{ t with storeCurrent :=
          { (s.setHv (pos (2 ^ k) hv.toNat d) hv).setBit (hv.toNat % 2 ^ k) d with
            usedCount := s.usedCount + 1 } }, pos (2 ^ k) hv.toNat d, ?_, ?_, ?_, rfl⟩
      · simp [reserve, hfind, hi, hfull, hs.lastSlot, bucketIndex_eq]
        rfl
      · refine ⟨ht.log_ge, ⟨⟨hclaim.buckets, hclaim.lastSlot, hclaim.threshold, hclaim.idle,
          hclaim.blank⟩, hclaim.maps⟩, ?_, ?_, ht.numbered, ?_⟩
        · show s.usedCount + 1 = _
          rw [hrep.used]
          exact hocc.symm
        · exact Nat.lt_of_not_le hfull
        · show Models (look _) t.nextEpoch t.itemCount M
          rw [hsame, hlook]
          exact ht.models
      · exact (congrFun hslots _).trans (Function.update_self _ _ _)

/-! ## Writing a record -/

/-- **A record is replaced** and its entry with it. -/
theorem Represents.setRecord (ht : Represents t M k)
    (hslot : t.storeCurrent.slot i = some hv) {r : CrownRecord}
    (hidle : r.moving = false ∧ r.moved = false) {n c : ℕ} (hn : 0 < n) {M' : OrderedMap}
    (hM : Models (Function.update t.look hv r.live) n c M') :
    Represents
      { t with
        storeCurrent := t.storeCurrent.setRecord i r
        itemCount := c
        nextEpoch := n } M' k := by
  obtain ⟨hs, hslots, hrecords⟩ := ht.store.setRecord hslot hidle
  refine ⟨ht.log_ge, hs, ?_, ht.room, hn, ?_⟩
  · show t.storeCurrent.usedCount = occupied (2 ^ k) (t.storeCurrent.setRecord i r).slot
    rw [hslots, ht.used]
  · have hlook : (fun hv' => ((t.storeCurrent.setRecord i r).records hv').bind CrownRecord.live) =
        Function.update t.look hv r.live := by
      funext hv'
      rw [hrecords]
      by_cases hsame : hv' = hv
      · rw [hsame, if_pos rfl, Function.update_self]
        rfl
      · rw [if_neg hsame, Function.update_of_ne hsame]
        rfl
    show Models (fun hv' => ((t.storeCurrent.setRecord i r).records hv').bind CrownRecord.live) _ _ _
    rw [hlook]
    exact hM

theorem Represents.look_eq (ht : Represents t M k)
    (hslot : t.storeCurrent.slot i = some hv) :
    t.look hv = (t.storeCurrent.bucket i).record.live :=
  look_of_slot ht.store.toSound hslot t rfl

/-- An item in an empty record is put behind the others. -/
theorem Represents.insertAt (ht : Represents t M k)
    (hslot : t.storeCurrent.slot i = some hv) (habs : t.look hv = none) (item : Item) :
    Represents (t.insertAt i item) (M.put hv item) k := by
  refine ht.setRecord hslot ⟨rfl, rfl⟩ (Nat.succ_pos _) ?_
  rw [CrownRecord.live, liveEntry_of_ne ht.numbered.ne']
  exact ht.models.insert habs item

/-- An item takes the place of the old one. -/
theorem Represents.overwriteAt (ht : Represents t M k)
    (hslot : t.storeCurrent.slot i = some hv)
    (hlive : (t.storeCurrent.bucket i).record.epoch ≠ 0) (item : Item) :
    Represents (t.overwriteAt i item) (M.put hv item) k := by
  have hold := ht.look_eq hslot
  rw [CrownRecord.live, liveEntry_of_ne hlive] at hold
  refine ht.setRecord (r := { (t.storeCurrent.bucket i).record with item := item }) hslot
    (ht.store.idle i) ht.numbered ?_
  rw [CrownRecord.live, liveEntry_of_ne hlive]
  exact ht.models.overwrite hold item

/-- A removed item is no entry. -/
theorem Represents.removeAt (ht : Represents t M k)
    (hslot : t.storeCurrent.slot i = some hv) {x : Item × ℕ} (hold : t.look hv = some x) :
    Represents (t.removeAt i) (M.remove hv) k :=
  ht.setRecord hslot ⟨rfl, rfl⟩ ht.numbered (ht.models.remove hold)

/-! ## Operations -/

/-- What an operation may do to a table that is an ordered map: reply as the map does, and be what
the map is afterwards, with at most one more number in use. -/
structure Simulates (t : Crown) (M : OrderedMap) (op : TableOp) (t' : Crown) (r : TableReply) :
    Prop where
  reply : r.Same op (M.exec op).2
  represents : ∃ k, Represents t' (M.exec op).1 k
  numbers : t'.nextEpoch ≤ t.nextEpoch + 1

theorem Represents.lastSlot_succ (ht : Represents t M k) : t.storeCurrent.lastSlot + 1 = 2 ^ k := by
  rw [ht.store.lastSlot, Nat.sub_add_cancel Nat.one_le_two_pow]

/-- What the table does not have the map has not. -/
theorem Represents.lookup_absent (ht : Represents t M k) (h : t.look hv = none) :
    M.lookup hv = none := by
  rw [ht.models.lookup_eq, h]
  rfl

/-- What it has the map has. -/
theorem Represents.lookup_present (ht : Represents t M k) {x : Item × ℕ} (h : t.look hv = some x) :
    M.lookup hv = some x.1 := by
  rw [ht.models.lookup_eq, h]
  rfl

/-- A hash is found, or there is a free bucket for it. -/
theorem Represents.find_cases (ht : Represents t M k) (h : hv ≠ 0) {n : ℕ} (hn : 2 ^ k - 1 ≤ n)
    (hnm : n ≤ 2 ^ k) :
    (∃ i, t.storeCurrent.find hv n = .hit i ∧ t.storeCurrent.slot i = some hv) ∨
    ∃ i d, t.storeCurrent.find hv n = .free i d ∧ t.look hv = none := by
  have hroom := ht.occupied_lt
  cases hr : t.storeCurrent.records hv with
  | some r =>
    obtain ⟨i, hi, hslot, _⟩ := ht.store.find_hit (n := n) h (by omega) (by omega) hr
    exact .inl ⟨i, hi, hslot⟩
  | none =>
    obtain ⟨d, _, hi, _⟩ := ht.store.find_free (n := n) h hnm (by omega) hr
    exact .inr ⟨_, d, hi, by rw [look, hr]; rfl⟩

/-- A record is empty, or has an entry. -/
theorem Represents.record_cases (ht : Represents t M k)
    (hslot : t.storeCurrent.slot i = some hv) :
    ((t.storeCurrent.bucket i).record.epoch = 0 ∧ t.look hv = none) ∨
    ((t.storeCurrent.bucket i).record.epoch ≠ 0 ∧
      t.look hv = some ((t.storeCurrent.bucket i).record.item,
        (t.storeCurrent.bucket i).record.epoch)) := by
  rw [ht.look_eq hslot, CrownRecord.live]
  by_cases he : (t.storeCurrent.bucket i).record.epoch = 0
  · exact .inl ⟨he, liveEntry_eq_none.mpr he⟩
  · exact .inr ⟨he, liveEntry_of_ne he⟩

/-- **`get`** replies what the map does. -/
theorem Represents.get_spec (ht : Represents t M k) (h : hv ≠ 0) (n : ℕ) :
    ∃ t' r, exec n t (.get hv) = some (t', r) ∧ Simulates t M (.get hv) t' r := by
  have hsame : ∀ {r}, itemReply (M.lookup hv) = r → Simulates t M (.get hv) t r :=
    fun hr => ⟨.inl hr.symm, ⟨k, ht⟩, Nat.le_succ _⟩
  rcases ht.find_cases h (n := t.storeCurrent.lastSlot) ht.store.lastSlot.ge
      (by rw [ht.store.lastSlot]; exact Nat.sub_le _ _) with ⟨i, hi, hslot⟩ | ⟨i, d, hi, habs⟩
  · rcases ht.record_cases hslot with ⟨he, habs⟩ | ⟨he, hpres⟩
    · exact ⟨t, .item null false, by simp [exec, CrownStore.get, hi, he],
        hsame (by rw [ht.lookup_absent habs]; rfl)⟩
    · exact ⟨t, .item (t.storeCurrent.bucket i).record.item true,
        by simp [exec, CrownStore.get, hi, he], hsame (by rw [ht.lookup_present hpres]; rfl)⟩
  · exact ⟨t, .item null false, by simp [exec, CrownStore.get, hi],
      hsame (by rw [ht.lookup_absent habs]; rfl)⟩

/-- An operation on a bucket does what it does on the one that is found or reserved, after a
migration if need be. -/
theorem Represents.with_bucket {ρ : Type} (ht : Represents t M k) (h : hv ≠ 0)
    (step : ℕ → ℕ → Crown → Option (Crown × ρ)) (Q : Crown → ρ → Prop)
    (hfull : ∀ n c t t', t.reserve hv = (t', none) → step (n + 1) c t = retry (step n) c t')
    (hfound : ∀ t t' k i, t.reserve hv = (t', some i) → Represents t' M k →
      t'.storeCurrent.slot i = some hv → ∃ t'' r, (∀ n c, step (n + 1) c t = some (t'', r)) ∧
        Q t'' r ∧ t''.nextEpoch ≤ t'.nextEpoch + 1) (n : ℕ) :
    ∃ t' r, step (n + 2) 0 t = some (t', r) ∧ Q t' r ∧ t'.nextEpoch ≤ t.nextEpoch + 1 := by
  rcases ht.reserve_spec h with ⟨t', i, hres, hrep, hslot, hnext⟩ | ⟨t', hres, _, hs, hnext, hM⟩
  · obtain ⟨t'', r, hstep, hQ, hle⟩ := hfound t t' k i hres hrep hslot
    exact ⟨t'', r, hstep _ _, hQ, hnext ▸ hle⟩
  · obtain ⟨k', hrep, hnext', hroom⟩ :=
      migrate_spec ht.log_ge hs (by rw [hnext]; exact ht.numbered) hM
    have hretry : step (n + 2) 0 t = step (n + 1) 1 t'.migrate := by
      rw [hfull _ _ _ _ hres, retry, if_neg (by decide)]
    -- there is room now, so the second try finds a bucket
    rcases hrep.reserve_spec h with ⟨t₁, i, hres₁, hrep₁, hslot, hnext₁⟩ | ⟨t₁, _, hge, _⟩
    · obtain ⟨t'', r, hstep, hQ, hle⟩ := hfound _ t₁ k' i hres₁ hrep₁ hslot
      exact ⟨t'', r, by rw [hretry, hstep], hQ, by omega⟩
    · omega

theorem Represents.idle (ht : Represents t M k) (i : ℕ) :
    (t.storeCurrent.bucket i).record.moving = false :=
  (ht.store.idle i).1

/-- **`put`** replies what the map does. -/
theorem Represents.put_spec (ht : Represents t M k) (h : hv ≠ 0) (item : Item) (n : ℕ) :
    ∃ t' r, exec (n + 2) t (.put hv item) = some (t', r) ∧ Simulates t M (.put hv item) t' r := by
  obtain ⟨t', r, hput, ⟨hrep, hreply⟩, hle⟩ := ht.with_bucket h (storePut hv item)
    (fun t' r => (∃ k, Represents t' (M.put hv item) k) ∧
      itemReply (M.lookup hv) = .item r.1 r.2)
    (fun n c t t' hres => by simp only [storePut, hres])
    (fun t t' k i hres ht' hslot => by
      have hidle := ht'.idle i
      rcases ht'.record_cases hslot with ⟨he, habs⟩ | ⟨he, hpres⟩
      · refine ⟨t'.insertAt i item, (null, false), fun n c => by simp [storePut, hres, hidle, he],
          ⟨⟨k, ht'.insertAt hslot habs item⟩, ?_⟩, le_rfl⟩
        rw [ht'.lookup_absent habs]
        rfl
      · refine ⟨t'.overwriteAt i item, ((t'.storeCurrent.bucket i).record.item, true),
          fun n c => by simp [storePut, hres, hidle, he],
          ⟨⟨k, ht'.overwriteAt hslot he item⟩, ?_⟩, Nat.le_succ _⟩
        rw [ht'.lookup_present hpres]
        rfl) n
  exact ⟨t', .item r.1 r.2, by simp [exec, hput], .inl hreply.symm, hrep, hle⟩

/-- **`add`** replies what the map does. -/
theorem Represents.add_spec (ht : Represents t M k) (h : hv ≠ 0) (item : Item) (n : ℕ) :
    ∃ t' r, exec (n + 2) t (.add hv item) = some (t', r) ∧ Simulates t M (.add hv item) t' r := by
  obtain ⟨t', r, hadd, ⟨hrep, hreply⟩, hle⟩ := ht.with_bucket h (storeAdd hv item)
    (fun t' r => (∃ k, Represents t' (M.exec (.add hv item)).1 k) ∧
      (M.exec (.add hv item)).2 = .added r)
    (fun n c t t' hres => by simp only [storeAdd, hres])
    (fun t t' k i hres ht' hslot => by
      have hidle := ht'.idle i
      rcases ht'.record_cases hslot with ⟨he, habs⟩ | ⟨he, hpres⟩
      · have hlookup := ht'.lookup_absent habs
        refine ⟨t'.insertAt i item, true, fun n c => by simp [storeAdd, hres, hidle, he],
          ⟨⟨k, ?_⟩, by simp [OrderedMap.exec, hlookup]⟩, le_rfl⟩
        have hinsert := ht'.insertAt hslot habs item
        simpa [OrderedMap.exec, hlookup] using hinsert
      · have hlookup := ht'.lookup_present hpres
        refine ⟨t', false, fun n c => by simp [storeAdd, hres, hidle, he],
          ⟨⟨k, ?_⟩, by simp [OrderedMap.exec, hlookup]⟩, Nat.le_succ _⟩
        simpa [OrderedMap.exec, hlookup] using ht') n
  exact ⟨t', .added r, by simp [exec, hadd], .inl hreply.symm, hrep, hle⟩

/-- **`replace`** replies what the map does. -/
theorem Represents.replace_spec (ht : Represents t M k) (h : hv ≠ 0) (item : Item) (n : ℕ) :
    ∃ t' r, exec (n + 1) t (.replace hv item) = some (t', r) ∧
      Simulates t M (.replace hv item) t' r := by
  -- an absent value is left absent
  have habsent : t.look hv = none → Simulates t M (.replace hv item) t (.item null false) := by
    intro habs
    have hlookup := ht.lookup_absent habs
    refine ⟨.inl (by simp [OrderedMap.exec, hlookup, itemReply]), ⟨k, ?_⟩, Nat.le_succ _⟩
    simpa [OrderedMap.exec, hlookup] using ht
  have hsize := ht.lastSlot_succ
  rcases ht.find_cases (n := 2 ^ k) h (Nat.sub_le _ _) le_rfl with
    ⟨i, hi, hslot⟩ | ⟨i, d, hi, habs⟩
  · have hidle := ht.idle i
    rcases ht.record_cases hslot with ⟨he, habs⟩ | ⟨he, hpres⟩
    · exact ⟨t, .item null false, by simp [exec, storeReplace, hsize, hi, hidle, he],
        habsent habs⟩
    · have hlookup := ht.lookup_present hpres
      obtain ⟨k', hrep, hnext⟩ := (ht.overwriteAt hslot he item).migrateFull
      refine ⟨(t.overwriteAt i item).migrateFull,
        .item (t.storeCurrent.bucket i).record.item true,
        by simp [exec, storeReplace, hsize, hi, hidle, he],
        .inl (by simp [OrderedMap.exec, hlookup, itemReply]), ⟨k', ?_⟩, ?_⟩
      · simpa [OrderedMap.exec, hlookup] using hrep
      · rw [hnext]
        exact Nat.le_succ _
  · exact ⟨t, .item null false, by simp [exec, storeReplace, hsize, hi], habsent habs⟩

/-- A comparison stores the item just if the expected one is there. -/
theorem Represents.cas_spec (ht : Represents t M k) (h : hv ≠ 0) (item expected : Item) (n : ℕ) :
    ∃ t' r, storeCas hv item expected (n + 1) 0 t = some (t', r) ∧
      ((M.lookup hv = some expected ∧ r = expected ∧ ∃ k, Represents t' (M.put hv item) k) ∨
        (M.lookup hv ≠ some expected ∧ r = null ∧ t' = t)) := by
  have hsize := ht.lastSlot_succ
  rcases ht.find_cases (n := 2 ^ k) h (Nat.sub_le _ _) le_rfl with
    ⟨i, hi, hslot⟩ | ⟨i, d, hi, habs⟩
  · have hidle := ht.idle i
    rcases ht.record_cases hslot with ⟨he, habs⟩ | ⟨he, hpres⟩
    · exact ⟨t, null, by simp [storeCas, hsize, hi, hidle, he],
        .inr ⟨by simp [ht.lookup_absent habs], rfl, rfl⟩⟩
    · have hlookup := ht.lookup_present hpres
      by_cases hitem : (t.storeCurrent.bucket i).record.item = expected
      · obtain ⟨k', hrep, _⟩ := (ht.overwriteAt hslot he item).migrateFull
        exact ⟨(t.overwriteAt i item).migrateFull, expected,
          by simp [storeCas, hsize, hi, hidle, he, hitem],
          .inl ⟨by rw [hlookup, ← hitem], rfl, k', hrep⟩⟩
      · exact ⟨t, null, by simp [storeCas, hsize, hi, hidle, he, hitem],
          .inr ⟨by simpa [hlookup] using hitem, rfl, rfl⟩⟩
  · exact ⟨t, null, by simp [storeCas, hsize, hi],
      .inr ⟨by simp [ht.lookup_absent habs], rfl, rfl⟩⟩

/-- **`remove`** replies what the map does. -/
theorem Represents.remove_spec (ht : Represents t M k) (h : hv ≠ 0) (n : ℕ) :
    ∃ t' r, exec (n + 1) t (.remove hv) = some (t', r) ∧ Simulates t M (.remove hv) t' r := by
  have habsent : t.look hv = none → Simulates t M (.remove hv) t (.item null false) := by
    intro habs
    refine ⟨.inl (by simp [OrderedMap.exec, ht.lookup_absent habs, itemReply]), ⟨k, ?_⟩,
      Nat.le_succ _⟩
    show Represents t (M.remove hv) k
    rw [ht.models.remove_absent habs]
    exact ht
  have hsize := ht.lastSlot_succ
  rcases ht.find_cases (n := 2 ^ k) h (Nat.sub_le _ _) le_rfl with
    ⟨i, hi, hslot⟩ | ⟨i, d, hi, habs⟩
  · have hidle := ht.idle i
    rcases ht.record_cases hslot with ⟨he, habs⟩ | ⟨he, hpres⟩
    · exact ⟨t, .item null false, by simp [exec, storeRemove, hsize, hi, hidle, he], habsent habs⟩
    · obtain ⟨k', hrep, hnext⟩ := (ht.removeAt hslot hpres).migrateFull
      refine ⟨(t.removeAt i).migrateFull, .item (t.storeCurrent.bucket i).record.item true,
        by simp [exec, storeRemove, hsize, hi, hidle, he],
        .inl (by simp [OrderedMap.exec, ht.lookup_present hpres, itemReply]), ⟨k', hrep⟩, ?_⟩
      rw [hnext]
      exact Nat.le_succ _
  · exact ⟨t, .item null false, by simp [exec, storeRemove, hsize, hi], habsent habs⟩

/-! ## What the operations return -/

/-- What the store gives for a hash. -/
theorem Represents.store_get (ht : Represents t M k) (h : hv ≠ 0) :
    t.storeCurrent.get hv = ((M.lookup hv).getD null, (M.lookup hv).isSome) := by
  obtain ⟨t', r, hexec, hsim⟩ := ht.get_spec h 0
  rw [exec, Option.some.injEq, Prod.mk.injEq] at hexec
  obtain ⟨rfl, rfl⟩ := hexec
  rcases hsim.reply with hreply | ⟨hview, _⟩
  · rw [OrderedMap.exec, itemReply, TableReply.item.injEq] at hreply
    exact Prod.ext hreply.1 hreply.2
  · cases hview

/-- What a put leaves in the map, and the item that was there. -/
theorem Represents.store_put (ht : Represents t M k) (h : hv ≠ 0) (item : Item) (n : ℕ) :
    ∃ t' found, storePut hv item (n + 2) 0 t = some (t', (M.lookup hv).getD null, found) ∧
      ∃ k, Represents t' (M.put hv item) k := by
  obtain ⟨t', r, hexec, hsim⟩ := ht.put_spec h item n
  obtain ⟨⟨u, x, found⟩, hput, heq⟩ := Option.map_eq_some_iff.mp hexec
  obtain ⟨rfl, rfl⟩ := Prod.mk.inj heq
  rcases hsim.reply with hreply | ⟨hview, _⟩
  · rw [OrderedMap.exec, itemReply, TableReply.item.injEq] at hreply
    exact ⟨u, found, by rw [hput, ← hreply.1], hsim.represents⟩
  · cases hview

/-- What an add leaves in the map. -/
theorem Represents.store_add (ht : Represents t M k) (h : hv ≠ 0) (item : Item) (n : ℕ) :
    ∃ t', storeAdd hv item (n + 2) 0 t = some (t', (M.lookup hv).isNone) ∧
      ∃ k, Represents t' (if (M.lookup hv).isSome then M else M.put hv item) k := by
  obtain ⟨t', r, hexec, hsim⟩ := ht.add_spec h item n
  obtain ⟨⟨u, ok⟩, hadd, heq⟩ := Option.map_eq_some_iff.mp hexec
  obtain ⟨rfl, rfl⟩ := Prod.mk.inj heq
  rcases hsim.reply with hreply | ⟨hview, _⟩
  · rw [OrderedMap.exec, TableReply.added.injEq] at hreply
    exact ⟨u, by rw [hadd, ← hreply], hsim.represents⟩
  · cases hview

/-- What a removal leaves in the map. -/
theorem Represents.store_remove (ht : Represents t M k) (h : hv ≠ 0) (n : ℕ) :
    ∃ t' found, storeRemove hv (n + 1) 0 t = some (t', (M.lookup hv).getD null, found) ∧
      ∃ k, Represents t' (M.remove hv) k := by
  obtain ⟨t', r, hexec, hsim⟩ := ht.remove_spec h n
  obtain ⟨⟨u, x, found⟩, hremove, heq⟩ := Option.map_eq_some_iff.mp hexec
  obtain ⟨rfl, rfl⟩ := Prod.mk.inj heq
  rcases hsim.reply with hreply | ⟨hview, _⟩
  · rw [OrderedMap.exec, itemReply, TableReply.item.injEq] at hreply
    exact ⟨u, found, by rw [hremove, ← hreply.1], hsim.represents⟩
  · cases hview

/-! ## Views -/

def numberedEntry (b : CrownBucket) : Option Numbered :=
  b.movedEntry.map fun e => (e.1, e.2.item, e.2.epoch)

/-- The entries of a table are its live hashes, each once. -/
theorem Represents.entries (ht : Represents t M k) :
    ((t.storeCurrent.buckets.filterMap numberedEntry).map Prod.fst).Nodup ∧
      ∀ hv x, (hv, x) ∈ t.storeCurrent.buckets.filterMap numberedEntry ↔
        t.look hv = some x := by
  have hkey : ∀ b ∈ t.storeCurrent.buckets, ∀ e, numberedEntry b = some e →
      CrownBucket.key b = some e.1 := by
    intro b hb e he
    obtain ⟨e', he', rfl⟩ := Option.map_eq_some_iff.mp he
    obtain ⟨hepoch, rfl⟩ := CrownBucket.movedEntry_eq_some.mp he'
    exact reservedFor_of_ne (ht.store.hv_ne hb hepoch)
  obtain ⟨hnodup, hmem⟩ := ht.store.buckets.entries_spec numberedEntry Prod.fst hkey
  refine ⟨hnodup, fun hv x => ?_⟩
  rw [hmem, look, CrownStore.records]
  cases hb : bucketOf CrownBucket.key t.storeCurrent.buckets hv with
  | none => simp
  | some b =>
    obtain ⟨_, hk⟩ := ht.store.buckets.bucketOf_iff.mp hb
    obtain ⟨rfl, _⟩ := reservedFor_inv hk
    by_cases he : b.record.epoch = 0
    · simp [numberedEntry, CrownBucket.movedEntry, CrownRecord.live, he]
    · simp [numberedEntry, CrownBucket.movedEntry, CrownRecord.live, liveEntry, he]

/-- What is in a view is in the map. -/
theorem Represents.mem_view (ht : Represents t M k) {sort : Bool} {e : Item × ℕ}
    (he : e ∈ t.view sort) : ∃ hv, M.lookup hv = some e.1 := by
  have hperm : e ∈ t.storeCurrent.buckets.filterMap viewEntry := by
    rw [view, viewSort] at he
    split at he
    · simpa using he
    · exact he
  obtain ⟨b, hb, hentry⟩ := List.mem_filterMap.mp hperm
  rw [viewEntry] at hentry
  split at hentry
  · cases hentry
  · rename_i hepoch
    obtain rfl := Option.some.inj hentry
    have hmem : (b.hv, b.record.item, b.record.epoch) ∈
        t.storeCurrent.buckets.filterMap numberedEntry :=
      List.mem_filterMap.mpr
        ⟨b, hb, by simp [numberedEntry, CrownBucket.movedEntry, hepoch]⟩
    exact ⟨b.hv, ht.lookup_present ((ht.entries.2 _ _).mp hmem)⟩

/-- **A view** has the items of the map, sorted by their epochs if it is asked to. -/
theorem Represents.view_spec (ht : Represents t M k) (hsmall : t.nextEpoch ≤ 2 ^ 31) (sort : Bool) :
    Simulates t M (.view sort) t (.view ((t.view sort).map Prod.fst)) := by
  obtain ⟨hnodup, hmem⟩ := ht.entries
  have hitems : t.storeCurrent.buckets.filterMap viewEntry =
      (t.storeCurrent.buckets.filterMap numberedEntry).map Prod.snd := by
    rw [List.map_filterMap]
    refine List.filterMap_congr fun b _ => ?_
    by_cases he : b.record.epoch = 0
    · simp [viewEntry, numberedEntry, CrownBucket.movedEntry, he]
    · simp [viewEntry, numberedEntry, CrownBucket.movedEntry, he]
  refine ⟨?_, ⟨k, ht⟩, Nat.le_succ _⟩
  rw [view, hitems]
  exact ht.models.view hsmall hnodup hmem sort

/-! ## Runs -/

/-- Every operation simulates that of the map. -/
theorem exec_spec (ht : Represents t M k) (hsmall : t.nextEpoch ≤ 2 ^ 31) (op : TableOp)
    (hop : op.HashNonzero) (n : ℕ) :
    ∃ t' r, exec (n + 2) t op = some (t', r) ∧ Simulates t M op t' r := by
  cases op with
  | get hv => exact ht.get_spec hop (n + 2)
  | put hv item => exact ht.put_spec hop item n
  | replace hv item => exact ht.replace_spec hop item (n + 1)
  | add hv item => exact ht.add_spec hop item n
  | remove hv => exact ht.remove_spec hop (n + 1)
  | len =>
    refine ⟨t, _, rfl, .inl ?_, ⟨k, ht⟩, Nat.le_succ _⟩
    rw [ht.models.count_eq]
    rfl
  | view sort => exact ⟨t, _, rfl, ht.view_spec hsmall sort⟩

/-- A new table is empty. -/
theorem initSize_represents {size memory : ℕ} (h : initSize size memory = some t) :
    Represents t [] size ∧ t.nextEpoch = 1 := by
  unfold initSize at h
  split at h
  · rename_i hsize
    rw [Nat.one_shiftLeft, Option.some.injEq] at h
    subst h
    have hempty : occupied (2 ^ size) (CrownStore.new (2 ^ size)).slot = 0 :=
      Probing.occupied_eq_zero fun i _ => CrownStore.slot_new _ i
    refine ⟨⟨hsize.1, CrownStore.new_wellFormed size, hempty.symm, Nat.zero_le _, Nat.one_pos, ?_⟩,
      rfl⟩
    have hlook : (fun hv => ((CrownStore.new (2 ^ size)).records hv).bind CrownRecord.live) =
        fun _ => none := by
      funext hv
      rw [CrownStore.records_new]
      rfl
    show Models (fun hv => ((CrownStore.new (2 ^ size)).records hv).bind CrownRecord.live) _ _ _
    rw [hlook]
    exact models_empty 1
  · cases h

/-- The table after `c` operations is a map. -/
def After (c : ℕ) (t : Crown) (M : OrderedMap) : Prop :=
  (∃ k, Represents t M k) ∧ t.nextEpoch ≤ c + 1

/-- **Every run** gives the replies of the map. -/
theorem run_ordered {size memory : ℕ} (h : initSize size memory = some t) (ops : List TableOp)
    (hlen : ops.length < 2 ^ 31) (hops : ∀ op ∈ ops, op.HashNonzero) (n : ℕ) :
    ∃ t' rs, runTable (exec (n + 2)) t ops = some (t', rs) ∧
      SameReplies ops rs (OrderedMap.replies [] ops) := by
  obtain ⟨hrep, hnext⟩ := initSize_represents h
  refine runTable_same (R := After) (c := 0) (2 ^ 31) ?_ ops ⟨⟨size, hrep⟩, hnext.le⟩
    (by omega) hops
  rintro c t M op ⟨⟨k, ht⟩, hle⟩ hc hop
  obtain ⟨t', r, hexec, hsim⟩ := exec_spec ht (by omega) op hop n
  have hnumbers := hsim.numbers
  exact ⟨t', r, hexec, ⟨hsim.represents, by omega⟩, hsim.reply⟩

end Crown

end N00b.Hatrack
