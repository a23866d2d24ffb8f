import N00b.Hatrack.Refhat

/-!
# The reference table is an ordered map

The buckets of the table, read as a function from hash values to items and their numbers. Every
operation changes this function at one hash value, as the ordered map does, and a migration does
not change it. There is always a bucket that nobody has reserved, so no loop runs to its end.

## Main results

- `Represents.migrate`: a migration changes nothing, and leaves room.
- `exec_spec`: what one operation does.
-/

namespace N00b.Hatrack

open Probing (Outcome Buckets bucketOf occupied pos search slots)

namespace RefhatBucket

/-- The hash value that a bucket is reserved for, as its key. -/
def key (b : RefhatBucket) : Option Hash := reservedFor b.hv

/-- The item of a bucket, with its number. -/
def live (b : RefhatBucket) : Option (Item × ℕ) := liveEntry b.item b.epoch

end RefhatBucket

namespace Refhat

/-- The item of a hash value, with its number. -/
def look (t : Refhat) (hv : Hash) : Option (Item × ℕ) :=
  (bucketOf RefhatBucket.key t.buckets hv).bind RefhatBucket.live

/-- The table, between operations, is this map. It has `2 ^ k` buckets. -/
structure Represents (t : Refhat) (M : OrderedMap) (k : ℕ) : Prop where
  log_ge : minSizeLog ≤ k
  buckets : Buckets RefhatBucket.key BitVec.toNat (2 ^ k) t.buckets
  lastSlot : t.lastSlot = 2 ^ k - 1
  threshold : t.threshold = computeTableThreshold (2 ^ k)
  used : t.usedCount = occupied (2 ^ k) (slots RefhatBucket.key t.buckets)
  room : t.usedCount < t.threshold
  numbered : 0 < t.nextEpoch
  models : Models t.look t.nextEpoch t.itemCount M

variable {t : Refhat} {M : OrderedMap} {k : ℕ} {hv : Hash}

/-! ## Finding a bucket -/

variable {b : RefhatBucket} {i : ℕ}

theorem bucket_of_getElem? (h : t.buckets[i]? = some b) :
    t.bucket i = b := by
  simp [bucket, h]

theorem slots_eq (L : List RefhatBucket) (i : ℕ) :
    slots RefhatBucket.key L i = reservedFor (L.getD i {}).hv := by
  cases h : L[i]? with
  | none => simp [slots, h, reservedFor]
  | some b => simp [slots, h, RefhatBucket.key]

theorem Represents.size_pos (ht : Represents t M k) : 1 < 2 ^ k := by
  obtain ⟨q, hq, hsize⟩ := size_spec ht.log_ge
  omega

theorem Represents.occupied_lt (ht : Represents t M k) :
    occupied (2 ^ k) (slots RefhatBucket.key t.buckets) < 2 ^ k := by
  have hlt := threshold_lt ht.log_ge
  have hroom := ht.room
  rw [ht.used, ht.threshold] at hroom
  omega

/-- Probing the table is linear probing of its slots. -/
theorem Represents.probe_eq_search (ht : Represents t M k) (h : hv ≠ 0) (n i : ℕ) :
    t.probe hv n i = search (2 ^ k) (slots RefhatBucket.key t.buckets) hv n i := by
  induction n generalizing i with
  | zero => rfl
  | succ n ih =>
    have hslot : slots RefhatBucket.key t.buckets i = reservedFor (t.bucket i).hv := slots_eq _ i
    rw [probe, ht.lastSlot, and_lastSlot, ih]
    by_cases hzero : (t.bucket i).hv = 0
    · rw [hzero, reservedFor_zero] at hslot
      rw [hzero, if_neg h, if_pos rfl, Probing.search_stop hslot]
    · rw [reservedFor_of_ne hzero] at hslot
      by_cases hsame : hv = (t.bucket i).hv
      · rw [← hsame] at hslot ⊢
        rw [if_pos rfl, Probing.search_here hslot]
      · rw [if_neg hsame, if_neg hzero, Probing.search_next hslot (Ne.symm hsame)]

/-- So is looking a hash up. -/
theorem Represents.find_eq_search (ht : Represents t M k) (h : hv ≠ 0) :
    t.find hv = search (2 ^ k) (slots RefhatBucket.key t.buckets) hv (2 ^ k)
      (hv.toNat % 2 ^ k) := by
  have hpos := ht.size_pos
  rw [find, ht.probe_eq_search h, ht.lastSlot, bucketIndex_eq,
    show 2 ^ k - 1 + 1 = 2 ^ k by omega]

/-- A hash with a bucket is found there. -/
theorem Represents.find_hit (ht : Represents t M k) (h : hv ≠ 0)
    (hb : bucketOf RefhatBucket.key t.buckets hv = some b) :
    ∃ i, t.find hv = .hit i ∧ t.bucket i = b ∧ b.hv = hv ∧
      slots RefhatBucket.key t.buckets i = some hv := by
  obtain ⟨i, _, hget, hk, hsearch⟩ := ht.buckets.search_hit hb
  refine ⟨i, ?_, bucket_of_getElem? hget, (reservedFor_eq_some h).mp hk,
    Probing.slots_eq_some.mpr ⟨b, hget, hk⟩⟩
  rw [ht.find_eq_search h]
  exact hsearch _ ht.occupied_lt.le

/-- A hash without one is led to a free bucket, where it can be put. -/
theorem Represents.find_free (ht : Represents t M k) (h : hv ≠ 0)
    (hb : bucketOf RefhatBucket.key t.buckets hv = none) :
    ∃ i, t.find hv = .free i ∧ ∀ b, RefhatBucket.key b = some hv →
      Buckets RefhatBucket.key BitVec.toNat (2 ^ k) (t.buckets.set i b) ∧
      occupied (2 ^ k) (slots RefhatBucket.key (t.buckets.set i b)) =
        occupied (2 ^ k) (slots RefhatBucket.key t.buckets) + 1 ∧
      ∀ hv', bucketOf RefhatBucket.key (t.buckets.set i b) hv' =
        if hv' = hv then some b else bucketOf RefhatBucket.key t.buckets hv' := by
  obtain ⟨d, hd, hfree, hrun, hsearch⟩ := ht.buckets.search_free hb ht.occupied_lt le_rfl
  refine ⟨_, (ht.find_eq_search h).trans hsearch, fun b hk => ?_⟩
  exact ht.buckets.insert hb hd hrun hfree hk

theorem look_of_bucketOf
    (hb : bucketOf RefhatBucket.key t.buckets hv = some b) : t.look hv = b.live := by
  rw [look, hb]
  rfl

/-- A bucket is dead, or has an item. -/
theorem look_cases (hb : bucketOf RefhatBucket.key t.buckets hv = some b) :
    b.epoch = 0 ∧ t.look hv = none ∨ b.epoch ≠ 0 ∧ t.look hv = some (b.item, b.epoch) := by
  rw [look_of_bucketOf hb, RefhatBucket.live]
  by_cases he : b.epoch = 0
  · exact .inl ⟨he, by rw [he, liveEntry_zero]⟩
  · exact .inr ⟨he, liveEntry_of_ne he⟩

/-! ## Writing a bucket -/

/-- A bucket that is replaced changes the entry of its hash only. -/
theorem look_update (t' : Refhat)
    (hset : ∀ hv', bucketOf RefhatBucket.key t'.buckets hv' =
      if hv' = hv then some b else bucketOf RefhatBucket.key t.buckets hv') :
    t'.look = Function.update t.look hv b.live := by
  funext hv'
  rw [look, hset]
  by_cases hsame : hv' = hv
  · subst hsame
    rw [if_pos rfl, Function.update_self]
    rfl
  · rw [if_neg hsame, Function.update_of_ne hsame]
    rfl

/-- **A bucket is replaced** and its entry with it. -/
theorem Represents.setBucket (ht : Represents t M k)
    (hslot : slots RefhatBucket.key t.buckets i = some hv) (hk : RefhatBucket.key b = some hv)
    {n c : ℕ} (hn : 0 < n) {M' : OrderedMap}
    (hM : Models (Function.update t.look hv b.live) n c M') :
    Represents { t.setBucket i b with itemCount := c, nextEpoch := n } M' k := by
  obtain ⟨hbuckets, hslots, hset⟩ := ht.buckets.replace hslot hk
  refine ⟨ht.log_ge, hbuckets, ht.lastSlot, ht.threshold, ?_, ht.room, hn, ?_⟩
  · show t.usedCount = occupied (2 ^ k) (slots RefhatBucket.key (t.buckets.set i b))
    rw [hslots, ht.used]
  · have hlook := look_update (t := t)
      { t.setBucket i b with itemCount := c, nextEpoch := n } hset
    rw [hlook]
    exact hM

/-! ## Migration -/

variable {m : ℕ}

theorem probeFree_eq {L : List RefhatBucket}
    (habs : bucketOf RefhatBucket.key L hv = none) (n i j : ℕ)
    (hsearch : search (2 ^ m) (slots RefhatBucket.key L) hv n i = .free j) :
    probeFree L (2 ^ m - 1) n i = some j := by
  induction n generalizing i with
  | zero => cases hsearch
  | succ n ih =>
    have hslot := slots_eq L i
    rw [probeFree, and_lastSlot]
    by_cases hzero : (L.getD i {}).hv = 0
    · rw [hzero, reservedFor_zero] at hslot
      rw [Probing.search_stop hslot, Outcome.free.injEq] at hsearch
      rw [if_pos hzero, hsearch]
    · rw [reservedFor_of_ne hzero] at hslot
      have hne : (L.getD i {}).hv ≠ hv := by
        rintro hsame
        rw [hsame] at hslot
        exact Probing.bucketOf_eq_none.mp habs i hslot
      rw [Probing.search_next hslot hne] at hsearch
      rw [if_neg hzero, ih _ hsearch]

/-- The bucket that is moved, under its hash value. -/
def movedEntry (b : RefhatBucket) : Option (Hash × RefhatBucket) :=
  if b.hv = 0 ∨ b.epoch = 0 then none else some (b.hv, b)

/-- A bucket is moved just if it is live. -/
theorem movedEntry_eq_some {e : Hash × RefhatBucket} :
    movedEntry b = some e ↔ (b.hv ≠ 0 ∧ b.epoch ≠ 0) ∧ (b.hv, b) = e := by
  simp [movedEntry, not_or]

theorem movedEntry_eq_none :
    movedEntry b = none ↔ b.hv = 0 ∨ b.epoch = 0 := by
  by_cases h : b.hv = 0 ∨ b.epoch = 0
  · rw [movedEntry, if_pos h]
    exact iff_of_true rfl h
  · rw [movedEntry, if_neg h]
    exact iff_of_false (by simp) h

/-- A live bucket is moved to the new table. -/
theorem moveBucket_spec {L : List RefhatBucket}
    (hL : Buckets RefhatBucket.key BitVec.toNat (2 ^ m) L) (h : b.hv ≠ 0) (he : b.epoch ≠ 0)
    (hroom : occupied (2 ^ m) (slots RefhatBucket.key L) < 2 ^ m)
    (habs : bucketOf RefhatBucket.key L b.hv = none) :
    Buckets RefhatBucket.key BitVec.toNat (2 ^ m) (moveBucket (2 ^ m) L b) ∧
      occupied (2 ^ m) (slots RefhatBucket.key (moveBucket (2 ^ m) L b)) =
        occupied (2 ^ m) (slots RefhatBucket.key L) + 1 ∧
      ∀ hv, bucketOf RefhatBucket.key (moveBucket (2 ^ m) L b) hv =
        if hv = b.hv then some b else bucketOf RefhatBucket.key L hv := by
  obtain ⟨d, hd, hfree, hrun, hsearch⟩ := hL.search_free habs hroom le_rfl
  have hmove : moveBucket (2 ^ m) L b = L.set (pos (2 ^ m) b.hv.toNat d) b := by
    rw [moveBucket, if_neg (not_or.mpr ⟨h, he⟩), bucketIndex_eq, probeFree_eq habs _ _ _ hsearch]
  rw [hmove]
  exact hL.insert habs hd hrun hfree (reservedFor_of_ne h)

def numberedEntry (b : RefhatBucket) : Option Numbered :=
  (movedEntry b).map fun e => (e.1, e.2.item, e.2.epoch)

/-- The entries of a table are its live hashes, each once. -/
theorem Represents.entries (ht : Represents t M k) :
    ((t.buckets.filterMap numberedEntry).map Prod.fst).Nodup ∧
      (∀ hv x, (hv, x) ∈ t.buckets.filterMap numberedEntry ↔ t.look hv = some x) ∧
      (t.buckets.filterMap numberedEntry).length = t.itemCount := by
  have hkey : ∀ b ∈ t.buckets, ∀ e, numberedEntry b = some e →
      RefhatBucket.key b = some e.1 := by
    intro b _ e he
    obtain ⟨e', he', rfl⟩ := Option.map_eq_some_iff.mp he
    obtain ⟨⟨hne, _⟩, rfl⟩ := movedEntry_eq_some.mp he'
    exact reservedFor_of_ne hne
  obtain ⟨hnodup, hmem⟩ := ht.buckets.entries_spec numberedEntry Prod.fst hkey
  have hlook : ∀ hv x, (hv, x) ∈ t.buckets.filterMap numberedEntry ↔ t.look hv = some x := by
    intro hv x
    rw [hmem, look]
    cases hb : bucketOf RefhatBucket.key t.buckets hv with
    | none => simp
    | some b =>
      have hk := (ht.buckets.bucketOf_iff.mp hb).2
      have hne : b.hv ≠ 0 := by
        intro hzero
        rw [RefhatBucket.key, hzero] at hk
        cases hk
      have hbv : b.hv = hv := by
        rw [RefhatBucket.key, reservedFor_of_ne hne] at hk
        exact Option.some.inj hk
      rw [Option.bind_some, Option.bind_some, numberedEntry, movedEntry, RefhatBucket.live,
        liveEntry]
      by_cases he : b.epoch = 0
      · simp [he]
      · rw [if_neg (not_or.mpr ⟨hne, he⟩), if_neg he, hbv]
        simp
  refine ⟨hnodup, hlook, ?_⟩
  obtain ⟨J, hJ, _, hcount⟩ := ht.models
  have hperm : (t.buckets.filterMap numberedEntry).Perm J := by
    rw [List.perm_ext_iff_of_nodup (List.Nodup.of_map _ hnodup) hJ.nodup]
    rintro ⟨hv, x⟩
    rw [hlook, hJ.mem]
  rw [hperm.length_eq, hcount]

theorem length_entries (L : List RefhatBucket) :
    (L.filterMap movedEntry).length = (L.filterMap numberedEntry).length := by
  have hmap : L.filterMap numberedEntry =
      (L.filterMap movedEntry).map fun e => (e.1, e.2.item, e.2.epoch) := by
    rw [List.map_filterMap]
    rfl
  rw [hmap, List.length_map]

/-- All live buckets are moved. -/
theorem Represents.moved (ht : Represents t M k) (hroom : t.itemCount ≤ 2 ^ m) :
    ∃ L, t.buckets.foldl (moveBucket (2 ^ m)) (List.replicate (2 ^ m) {}) = L ∧
      Buckets RefhatBucket.key BitVec.toNat (2 ^ m) L ∧
      occupied (2 ^ m) (slots RefhatBucket.key L) = t.itemCount ∧
      ∀ hv, (bucketOf RefhatBucket.key L hv).bind RefhatBucket.live = t.look hv := by
  obtain ⟨_, _, hlen⟩ := ht.entries
  rw [← length_entries] at hlen
  have hkey : ∀ b ∈ t.buckets, ∀ e, movedEntry b = some e → RefhatBucket.key b = some e.1 := by
    intro b _ e he
    obtain ⟨⟨hne, _⟩, rfl⟩ := movedEntry_eq_some.mp he
    exact reservedFor_of_ne hne
  obtain ⟨hnodup, hmem⟩ := ht.buckets.entries_spec movedEntry Prod.fst hkey
  have hzero : RefhatBucket.key {} = none := reservedFor_zero
  obtain ⟨hbuckets, hocc, hin, hout⟩ := Probing.foldl_insert
    (Buckets RefhatBucket.key BitVec.toNat (2 ^ m))
    (fun L => occupied (2 ^ m) (slots RefhatBucket.key L)) (bucketOf RefhatBucket.key)
    (moveBucket (2 ^ m)) movedEntry (2 ^ m) t.buckets
    (fun b _ hnone L => by rw [moveBucket, if_pos (movedEntry_eq_none.mp hnone)])
    (fun b _ hv b' he L hL hlt habs => by
      obtain ⟨⟨hne, hepoch⟩, heq⟩ := movedEntry_eq_some.mp he
      obtain ⟨rfl, rfl⟩ := Prod.mk.inj heq
      exact moveBucket_spec hL hne hepoch hlt habs)
    (Probing.buckets_replicate BitVec.toNat hzero (2 ^ m)) hnodup
    (fun e _ => Probing.bucketOf_replicate hzero (2 ^ m) e.1)
    (by rw [Probing.occupied_replicate hzero, hlen]; omega)
  refine ⟨_, rfl, hbuckets, ?_, fun hv => ?_⟩
  · rw [hocc, Probing.occupied_replicate hzero, hlen, Nat.zero_add]
  · -- only what is in use is in the new table
    have hgone : (∀ e, (bucketOf RefhatBucket.key t.buckets hv).bind movedEntry ≠ some e) →
        hv ∉ (t.buckets.filterMap movedEntry).map Prod.fst := by
      intro hno hmap
      obtain ⟨e, he, rfl⟩ := List.mem_map.mp hmap
      exact hno e ((hmem e).mp he)
    cases hb : bucketOf RefhatBucket.key t.buckets hv with
    | none =>
      rw [hb] at hgone
      rw [hout hv (hgone (by simp)), Probing.bucketOf_replicate hzero, look, hb]
    | some b =>
      rw [look_of_bucketOf hb]
      rw [hb] at hgone
      cases hm : movedEntry b with
      | none =>
        have hk := (ht.buckets.bucketOf_iff.mp hb).2
        rcases movedEntry_eq_none.mp hm with hhv | hepoch
        · rw [RefhatBucket.key, hhv] at hk
          cases hk
        · rw [hout hv (hgone (by simp [hm])), Probing.bucketOf_replicate hzero, RefhatBucket.live,
            hepoch]
          rfl
      | some e =>
        obtain ⟨_, heq⟩ := movedEntry_eq_some.mp hm
        have hehv : e.1 = hv := by
          have hk := (ht.buckets.bucketOf_iff.mp hb)
          have hk' := hkey b hk.1 e hm
          rw [hk.2] at hk'
          exact (Option.some.inj hk').symm
        have he : e ∈ t.buckets.filterMap movedEntry := by
          rw [hmem, hehv, hb]
          exact hm
        rw [← hehv, hin e he, ← heq]
        rfl

/-- **A migration** represents the same map, with room. -/
theorem Represents.migrate (ht : Represents t M k) :
    ∃ k', Represents t.migrate M k' ∧ t.migrate.nextEpoch = t.nextEpoch ∧
      t.migrate.usedCount + 1 < t.migrate.threshold := by
  obtain ⟨_, _, hlen⟩ := ht.entries
  have hle : t.itemCount + 1 ≤ 2 ^ k + 1 := by
    rw [← hlen, ← ht.buckets.length]
    exact Nat.succ_le_succ (List.length_filterMap_le _ _)
  obtain ⟨k', hk', hsize, hlt⟩ := newSize_spec ht.log_ge hle
  have hthr := threshold_lt hk'
  obtain ⟨L, hL, hbuckets, hocc, hlook⟩ := ht.moved (m := k') (by omega)
  have hmigrate : t.migrate = { t with
      lastSlot := 2 ^ k' - 1, threshold := computeTableThreshold (2 ^ k'),
      usedCount := t.itemCount, buckets := L } := by
    simp only [Refhat.migrate, ht.lastSlot, hsize, hL]
  rw [hmigrate]
  refine ⟨k', ⟨hk', hbuckets, rfl, rfl, hocc.symm, ?_, ht.numbered, ?_⟩, rfl, hlt⟩
  · exact Nat.lt_of_succ_lt hlt
  · have hsame : (fun hv => (bucketOf RefhatBucket.key L hv).bind RefhatBucket.live) = t.look :=
      funext hlook
    show Models (fun hv => (bucketOf RefhatBucket.key L hv).bind RefhatBucket.live) _ _ M
    rw [hsame]
    exact ht.models

/-! ## Operations -/

/-- What an operation may do to a table that is an ordered map: reply as the map does, and be what
the map is afterwards, with at most one more number in use. -/
structure Simulates (t : Refhat) (M : OrderedMap) (op : TableOp) (t' : Refhat) (r : TableReply) :
    Prop where
  reply : r.Same op (M.exec op).2
  represents : ∃ k, Represents t' (M.exec op).1 k
  numbers : t'.nextEpoch ≤ t.nextEpoch + 1

theorem Represents.reply_absent (ht : Represents t M k) (h : t.look hv = none) :
    itemReply (M.lookup hv) = .item null false := by
  rw [ht.models.lookup_eq, h]
  rfl

theorem Represents.reply_present (ht : Represents t M k) {x : Item × ℕ} (h : t.look hv = some x) :
    itemReply (M.lookup hv) = .item x.1 true := by
  rw [ht.models.lookup_eq, h]
  rfl

/-- An item in a dead bucket is put behind the others. -/
theorem Represents.insertAt (ht : Represents t M k)
    (hb : bucketOf RefhatBucket.key t.buckets hv = some b) (hi : t.bucket i = b)
    (hslot : slots RefhatBucket.key t.buckets i = some hv) (hdead : b.epoch = 0) (item : Item) :
    Represents (t.insertAt i item) (M.put hv item) k := by
  have hk : RefhatBucket.key { b with item := item, epoch := t.nextEpoch } = some hv :=
    (ht.buckets.bucketOf_iff.mp hb).2
  have habs : t.look hv = none := by rw [look_of_bucketOf hb, RefhatBucket.live, hdead]; rfl
  rw [Refhat.insertAt, hi]
  refine ht.setBucket hslot hk (Nat.succ_pos _) ?_
  rw [RefhatBucket.live, liveEntry_of_ne ht.numbered.ne']
  exact ht.models.insert habs item

/-- An item in a live bucket takes the place of the old one. -/
theorem Represents.overwriteAt (ht : Represents t M k)
    (hb : bucketOf RefhatBucket.key t.buckets hv = some b) (hi : t.bucket i = b)
    (hslot : slots RefhatBucket.key t.buckets i = some hv) (hlive : b.epoch ≠ 0) (item : Item) :
    Represents (t.overwriteAt i item) (M.put hv item) k := by
  have hk : RefhatBucket.key { b with item := item } = some hv :=
    (ht.buckets.bucketOf_iff.mp hb).2
  have hold : t.look hv = some (b.item, b.epoch) := by
    rw [look_of_bucketOf hb, RefhatBucket.live, liveEntry_of_ne hlive]
  have hset := ht.setBucket (c := t.itemCount) hslot hk ht.numbered
    (by rw [RefhatBucket.live, liveEntry_of_ne hlive]; exact ht.models.overwrite hold item)
  rw [Refhat.overwriteAt, hi]
  exact hset

/-- A free bucket is taken for a hash. -/
theorem Represents.reserveAt (ht : Represents t M k) (h : hv ≠ 0)
    (hb : bucketOf RefhatBucket.key t.buckets hv = none)
    (hfree : ∀ b, RefhatBucket.key b = some hv →
      Buckets RefhatBucket.key BitVec.toNat (2 ^ k) (t.buckets.set i b) ∧
      occupied (2 ^ k) (slots RefhatBucket.key (t.buckets.set i b)) =
        occupied (2 ^ k) (slots RefhatBucket.key t.buckets) + 1 ∧
      ∀ hv', bucketOf RefhatBucket.key (t.buckets.set i b) hv' =
        if hv' = hv then some b else bucketOf RefhatBucket.key t.buckets hv')
    (hroom : t.usedCount + 1 < t.threshold) (item : Item) :
    Represents (t.reserveAt i hv item) (M.put hv item) k := by
  have habs : t.look hv = none := by rw [look, hb]; rfl
  obtain ⟨hbuckets, hocc, hset⟩ := hfree { hv := hv, item := item, epoch := t.nextEpoch }
    (reservedFor_of_ne h)
  refine ⟨ht.log_ge, hbuckets, ht.lastSlot, ht.threshold, ?_, hroom, Nat.succ_pos _, ?_⟩
  · show t.usedCount + 1 = _
    rw [ht.used]
    exact hocc.symm
  · have hlook : (t.reserveAt i hv item).look =
        Function.update t.look hv (some (item, t.nextEpoch)) := by
      rw [look_update (t := t) _ hset, RefhatBucket.live, liveEntry_of_ne ht.numbered.ne']
    rw [hlook]
    exact ht.models.insert habs item

/-- **`get`** replies what the map does. -/
theorem Represents.get_spec (ht : Represents t M k) (h : hv ≠ 0) (n : ℕ) :
    ∃ t' r, exec n t (.get hv) = some (t', r) ∧ Simulates t M (.get hv) t' r := by
  cases hb : bucketOf RefhatBucket.key t.buckets hv with
  | none =>
    obtain ⟨i, hfind, _⟩ := ht.find_free h hb
    have habs : t.look hv = none := by rw [look, hb]; rfl
    exact ⟨t, _, by simp [exec, get, hfind], .inl (ht.reply_absent habs).symm, ⟨k, ht⟩,
      Nat.le_succ _⟩
  | some b =>
    obtain ⟨i, hfind, hi, _, _⟩ := ht.find_hit h hb
    rcases look_cases hb with ⟨he, hlook⟩ | ⟨he, hlook⟩
    · exact ⟨t, _, by simp [exec, get, hfind, hi, he], .inl (ht.reply_absent hlook).symm, ⟨k, ht⟩,
        Nat.le_succ _⟩
    · exact ⟨t, _, by simp [exec, get, hfind, hi, he], .inl (ht.reply_present hlook).symm, ⟨k, ht⟩,
        Nat.le_succ _⟩

/-- An operation that needs room does on a full table what it does after a migration. -/
theorem Represents.with_room (ht : Represents t M k) (h : hv ≠ 0) {n : ℕ} {op : TableOp}
    (hfound : ∀ {t k}, Represents t M k → ∀ n b, bucketOf RefhatBucket.key t.buckets hv = some b →
      ∃ t' r, exec (n + 1) t op = some (t', r) ∧ Simulates t M op t' r)
    (hfree : ∀ {t k}, Represents t M k → ∀ n, bucketOf RefhatBucket.key t.buckets hv = none →
      t.usedCount + 1 < t.threshold →
      ∃ t' r, exec (n + 1) t op = some (t', r) ∧ Simulates t M op t' r)
    (hfull : ∀ i, t.find hv = .free i → t.usedCount + 1 = t.threshold →
      exec (n + 2) t op = exec (n + 1) t.migrate op) :
    ∃ t' r, exec (n + 2) t op = some (t', r) ∧ Simulates t M op t' r := by
  cases hb : bucketOf RefhatBucket.key t.buckets hv with
  | some b => exact hfound ht (n + 1) b hb
  | none =>
    by_cases hlast : t.usedCount + 1 = t.threshold
    · obtain ⟨i, hfind, _⟩ := ht.find_free h hb
      obtain ⟨k', hm, hnext, hroom⟩ := ht.migrate
      rw [hfull i hfind hlast]
      cases hb' : bucketOf RefhatBucket.key t.migrate.buckets hv with
      | some b =>
        obtain ⟨t', r, hexec, hsim⟩ := hfound hm n b hb'
        exact ⟨t', r, hexec, hsim.reply, hsim.represents, by rw [← hnext]; exact hsim.numbers⟩
      | none =>
        obtain ⟨t', r, hexec, hsim⟩ := hfree hm n hb' hroom
        exact ⟨t', r, hexec, hsim.reply, hsim.represents, by rw [← hnext]; exact hsim.numbers⟩
    · have hroom := ht.room
      exact hfree ht (n + 1) hb (by omega)

/-- `put` of a hash that has a bucket. -/
theorem Represents.put_found (ht : Represents t M k) (h : hv ≠ 0) (item : Item) (n : ℕ)
    (hb : bucketOf RefhatBucket.key t.buckets hv = some b) :
    ∃ t' r, exec (n + 1) t (.put hv item) = some (t', r) ∧
      Simulates t M (.put hv item) t' r := by
  obtain ⟨i, hfind, hi, _, hslot⟩ := ht.find_hit h hb
  rcases look_cases hb with ⟨he, hlook⟩ | ⟨he, hlook⟩
  · exact ⟨_, _, by simp [exec, put, hfind, hi, he], .inl (ht.reply_absent hlook).symm,
      ⟨k, ht.insertAt hb hi hslot he item⟩, le_rfl⟩
  · exact ⟨_, _, by simp [exec, put, hfind, hi, he], .inl (ht.reply_present hlook).symm,
      ⟨k, ht.overwriteAt hb hi hslot he item⟩, Nat.le_succ _⟩

/-- `put` of one that has none, with room in the table. -/
theorem Represents.put_free (ht : Represents t M k) (h : hv ≠ 0) (item : Item) (n : ℕ)
    (hb : bucketOf RefhatBucket.key t.buckets hv = none) (hroom : t.usedCount + 1 < t.threshold) :
    ∃ t' r, exec (n + 1) t (.put hv item) = some (t', r) ∧
      Simulates t M (.put hv item) t' r := by
  obtain ⟨i, hfind, hfree⟩ := ht.find_free h hb
  have habs : t.look hv = none := by rw [look, hb]; rfl
  exact ⟨_, _, by simp [exec, put, hfind, hroom.ne], .inl (ht.reply_absent habs).symm,
    ⟨k, ht.reserveAt h hb hfree hroom item⟩, le_rfl⟩

/-- **`put`** replies what the map does. -/
theorem Represents.put_spec (ht : Represents t M k) (h : hv ≠ 0) (item : Item) (n : ℕ) :
    ∃ t' r, exec (n + 2) t (.put hv item) = some (t', r) ∧ Simulates t M (.put hv item) t' r :=
  ht.with_room h (fun ht n _ hb => ht.put_found h item n hb)
    (fun ht n hb hroom => ht.put_free h item n hb hroom)
    fun i hfind hlast => by simp only [exec, put, hfind, hlast, if_true]

theorem Represents.exec_add_absent (ht : Represents t M k) (habs : t.look hv = none)
    (item : Item) : M.exec (.add hv item) = (M.put hv item, .added true) := by
  have hlookup : M.lookup hv = none := by rw [ht.models.lookup_eq, habs]; rfl
  simp [OrderedMap.exec, hlookup]

/-- `add` of a hash that has a bucket. -/
theorem Represents.add_found (ht : Represents t M k) (h : hv ≠ 0) (item : Item) (n : ℕ)
    (hb : bucketOf RefhatBucket.key t.buckets hv = some b) :
    ∃ t' r, exec (n + 1) t (.add hv item) = some (t', r) ∧
      Simulates t M (.add hv item) t' r := by
  obtain ⟨i, hfind, hi, _, hslot⟩ := ht.find_hit h hb
  rcases look_cases hb with ⟨he, hlook⟩ | ⟨he, hlook⟩
  · have hexec := ht.exec_add_absent hlook item
    refine ⟨t.insertAt i item, .added true, by simp [exec, add, hfind, hi, he],
      .inl (by rw [hexec]), ⟨k, ?_⟩, le_rfl⟩
    rw [hexec]
    exact ht.insertAt hb hi hslot he item
  · have hlookup : M.lookup hv = some b.item := by rw [ht.models.lookup_eq, hlook]; rfl
    refine ⟨t, .added false, by simp [exec, add, hfind, hi, he], .inl ?_, ⟨k, ?_⟩, Nat.le_succ _⟩
    · simp [OrderedMap.exec, hlookup]
    · simpa [OrderedMap.exec, hlookup] using ht

/-- `add` of one that has none, with room in the table. -/
theorem Represents.add_free (ht : Represents t M k) (h : hv ≠ 0) (item : Item) (n : ℕ)
    (hb : bucketOf RefhatBucket.key t.buckets hv = none) (hroom : t.usedCount + 1 < t.threshold) :
    ∃ t' r, exec (n + 1) t (.add hv item) = some (t', r) ∧
      Simulates t M (.add hv item) t' r := by
  obtain ⟨i, hfind, hfree⟩ := ht.find_free h hb
  have habs : t.look hv = none := by rw [look, hb]; rfl
  have hexec := ht.exec_add_absent habs item
  refine ⟨t.reserveAt i hv item, .added true, by simp [exec, add, hfind, hroom.ne],
    .inl (by rw [hexec]), ⟨k, ?_⟩, le_rfl⟩
  rw [hexec]
  exact ht.reserveAt h hb hfree hroom item

/-- **`add`** replies what the map does. -/
theorem Represents.add_spec (ht : Represents t M k) (h : hv ≠ 0) (item : Item) (n : ℕ) :
    ∃ t' r, exec (n + 2) t (.add hv item) = some (t', r) ∧ Simulates t M (.add hv item) t' r :=
  ht.with_room h (fun ht n _ hb => ht.add_found h item n hb)
    (fun ht n hb hroom => ht.add_free h item n hb hroom)
    fun i hfind hlast => by simp only [exec, add, hfind, hlast, if_true]

/-- **`replace`** replies what the map does. -/
theorem Represents.replace_spec (ht : Represents t M k) (h : hv ≠ 0) (item : Item) (n : ℕ) :
    ∃ t' r, exec n t (.replace hv item) = some (t', r) ∧
      Simulates t M (.replace hv item) t' r := by
  -- an absent value is left absent
  have habsent : t.look hv = none → Simulates t M (.replace hv item) t (.item null false) := by
    intro habs
    have hlookup : M.lookup hv = none := by rw [ht.models.lookup_eq, habs]; rfl
    refine ⟨.inl (ht.reply_absent habs).symm, ⟨k, ?_⟩, Nat.le_succ _⟩
    simpa [OrderedMap.exec, hlookup] using ht
  cases hb : bucketOf RefhatBucket.key t.buckets hv with
  | none =>
    obtain ⟨i, hfind, _⟩ := ht.find_free h hb
    exact ⟨t, _, by simp [exec, replace, hfind], habsent (by rw [look, hb]; rfl)⟩
  | some b =>
    obtain ⟨i, hfind, hi, _, hslot⟩ := ht.find_hit h hb
    rcases look_cases hb with ⟨he, hlook⟩ | ⟨he, hlook⟩
    · exact ⟨t, _, by simp [exec, replace, hfind, hi, he], habsent hlook⟩
    · have hlookup : M.lookup hv = some b.item := by rw [ht.models.lookup_eq, hlook]; rfl
      refine ⟨t.overwriteAt i item, .item b.item true, by simp [exec, replace, hfind, hi, he],
        .inl (ht.reply_present hlook).symm, ⟨k, ?_⟩, Nat.le_succ _⟩
      have hput := ht.overwriteAt hb hi hslot he item
      simpa [OrderedMap.exec, hlookup] using hput

/-- **`remove`** replies what the map does. -/
theorem Represents.remove_spec (ht : Represents t M k) (h : hv ≠ 0) (n : ℕ) :
    ∃ t' r, exec n t (.remove hv) = some (t', r) ∧ Simulates t M (.remove hv) t' r := by
  have habsent : t.look hv = none → Simulates t M (.remove hv) t (.item null false) := by
    intro habs
    refine ⟨.inl (ht.reply_absent habs).symm, ⟨k, ?_⟩, Nat.le_succ _⟩
    show Represents t (M.remove hv) k
    rw [ht.models.remove_absent habs]
    exact ht
  cases hb : bucketOf RefhatBucket.key t.buckets hv with
  | none =>
    obtain ⟨i, hfind, _⟩ := ht.find_free h hb
    exact ⟨t, _, by simp [exec, remove, hfind], habsent (by rw [look, hb]; rfl)⟩
  | some b =>
    obtain ⟨i, hfind, hi, _, hslot⟩ := ht.find_hit h hb
    rcases look_cases hb with ⟨he, hlook⟩ | ⟨he, hlook⟩
    · exact ⟨t, _, by simp [exec, remove, hfind, hi, he], habsent hlook⟩
    · have hk : RefhatBucket.key { b with epoch := 0 } = some hv :=
        (ht.buckets.bucketOf_iff.mp hb).2
      exact ⟨_, _, by simp [exec, remove, hfind, hi, he]; rfl, .inl (ht.reply_present hlook).symm,
        ⟨k, ht.setBucket hslot hk ht.numbered (ht.models.remove hlook)⟩, Nat.le_succ _⟩

/-- **A view** has the items of the map, sorted by their epochs if it is asked to. -/
theorem Represents.view_spec (ht : Represents t M k) (hsmall : t.nextEpoch ≤ 2 ^ 31) (sort : Bool) :
    Simulates t M (.view sort) t (.view ((t.view sort).map Prod.fst)) := by
  obtain ⟨hnodup, hmem, _⟩ := ht.entries
  have hitems : t.buckets.filterMap viewEntry =
      (t.buckets.filterMap numberedEntry).map Prod.snd := by
    rw [List.map_filterMap]
    refine List.filterMap_congr fun b _ => ?_
    by_cases hdead : b.hv = 0 ∨ b.epoch = 0
    · rw [viewEntry, if_pos hdead, numberedEntry, movedEntry, if_pos hdead]
      rfl
    · rw [viewEntry, if_neg hdead, numberedEntry, movedEntry, if_neg hdead]
      rfl
  refine ⟨?_, ⟨k, ht⟩, Nat.le_succ _⟩
  rw [view, hitems]
  exact ht.models.view hsmall hnodup hmem sort

/-- Every operation simulates that of the map. -/
theorem exec_spec (ht : Represents t M k) (hsmall : t.nextEpoch ≤ 2 ^ 31) (op : TableOp)
    (hop : op.HashNonzero) (n : ℕ) :
    ∃ t' r, exec (n + 2) t op = some (t', r) ∧ Simulates t M op t' r := by
  cases op with
  | get hv => exact ht.get_spec hop (n + 2)
  | put hv item => exact ht.put_spec hop item n
  | replace hv item => exact ht.replace_spec hop item (n + 2)
  | add hv item => exact ht.add_spec hop item n
  | remove hv => exact ht.remove_spec hop (n + 2)
  | len =>
    refine ⟨t, _, rfl, .inl ?_, ⟨k, ht⟩, Nat.le_succ _⟩
    rw [ht.models.count_eq]
    rfl
  | view sort => exact ⟨t, _, rfl, ht.view_spec hsmall sort⟩

theorem look_replicate (h : t.buckets = List.replicate m {}) : t.look = fun _ => none := by
  funext hv
  rw [look, h, Probing.bucketOf_replicate (show RefhatBucket.key {} = none from rfl)]
  rfl

/-- A new table is empty. -/
theorem initSize_represents {size : ℕ} (h : initSize size = some t) :
    Represents t [] size ∧ t.nextEpoch = 1 := by
  unfold initSize at h
  split at h
  · rename_i hsize
    have hshift : 1 <<< size = 2 ^ size := Nat.one_shiftLeft size
    rw [hshift, Option.some.injEq] at h
    have hzero : RefhatBucket.key {} = none := reservedFor_zero
    obtain ⟨q, hq, hpow⟩ := size_spec hsize.1
    have hlook : t.look = fun _ => none := look_replicate (m := 2 ^ size) (by rw [← h])
    subst h
    refine ⟨⟨hsize.1, Probing.buckets_replicate _ hzero _, rfl, rfl,
      (Probing.occupied_replicate hzero _ _).symm, ?_, Nat.one_pos, ?_⟩, rfl⟩
    · show 0 < computeTableThreshold (2 ^ size)
      rw [computeTableThreshold, hpow]
      omega
    · rw [hlook]
      exact models_empty 1
  · cases h

/-- The table after `c` operations is a map. -/
def After (c : ℕ) (t : Refhat) (M : OrderedMap) : Prop :=
  (∃ k, Represents t M k) ∧ t.nextEpoch ≤ c + 1

/-- **Every run** gives the replies of the map. -/
theorem run_same {size : ℕ} (h : initSize size = some t) (ops : List TableOp)
    (hlen : ops.length < 2 ^ 31) (hops : ∀ op ∈ ops, op.HashNonzero) (n : ℕ) :
    ∃ t' rs, runTable (exec (n + 2)) t ops = some (t', rs) ∧
      SameReplies ops rs (OrderedMap.replies [] ops) := by
  obtain ⟨hrep, hnext⟩ := initSize_represents h
  refine runTable_same (R := After) (c := 0) (2 ^ 31) ?_ ops ⟨⟨size, hrep⟩, hnext.le⟩
    (by omega) hops
  rintro c t M op ⟨⟨k, ht⟩, hle⟩ hc hop
  obtain ⟨t', r, hexec, hsim⟩ := exec_spec ht (by omega) op hop n
  have hnumbers := hsim.numbers
  exact ⟨t', r, hexec, ⟨hsim.represents, by omega⟩, hsim.reply⟩

end Refhat

end N00b.Hatrack
