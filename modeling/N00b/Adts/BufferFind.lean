import N00b.Adts.BufferCapacity

/-!
# Finding bytes in a buffer

`_n00b_buffer_find`. The loop over the places to look at is bounded, but a mismatch goes back to its
body and not to its bound.
-/

namespace N00b.Adts

open N00b.Lib

namespace BufObj

/-- The loop over the bytes of `sub`: whether they are all at a place, and the bytes of the buffer
that were looked at. -/
def compareAt (data : List UInt8) : ℤ → List UInt8 → Option (Bool × List ℤ)
  | _, [] => some (true, [])
  | p, c :: sub =>
    (Block.load data p).bind fun x =>
      if x = c then (compareAt data (p + 1) sub).map fun (eq, reads) => (eq, p :: reads)
      else some (false, [p])

/-- The body of the outer loop, from `next_start` on, for so many places. Every place is a byte
further on, so there are no more places than bytes, and one. -/
def searchFrom (data sub : List UInt8) : ℕ → ℤ → Option (ℤ × List ℤ)
  | 0, _ => none
  | fuel + 1, bp =>
    (compareAt data bp sub).bind fun (eq, reads) =>
      if eq then some (bp, reads)
      else (searchFrom data sub fuel (bp + 1)).map fun (r, more) => (r, reads ++ more)

/-- `start` and `end` in a buffer of `blen` bytes, unless there is nothing between them. -/
def findRange (blen start stop : ℤ) : Option (ℤ × ℤ) :=
  let first := if start < 0 then start + blen else start
  let last := if stop < 0 then stop + (blen + 1) else stop
  if first < 0 ∨ last ≤ first then none else some (first, if blen < last then blen else last)

/-- `_n00b_buffer_find`: the result, and the bytes of the buffer that were looked at. -/
def find (b sub : BufObj) (start stop : ℤ) : Option (ℤ × List ℤ) :=
  match findRange b.byteLen start stop with
  | none => some (-1, [])
  | some (first, last) =>
    if sub.byteLen = 0 then some (first, [])
    else if first ≤ last - sub.byteLen then
      searchFrom b.data sub.contents (b.data.length + 1) first
    else some (-1, [])

/-! ## What is asked of it -/

/-- The bytes of `sub` are at a place in the range. -/
def OccursIn (b sub : BufObj) (range : ℤ × ℤ) (i : ℤ) : Prop :=
  range.1 ≤ i ∧ i + sub.byteLen ≤ range.2 ∧ sub.contents <+: b.contents.drop i.toNat

/-- **The first occurrence in the range**, or -1 where there is none. -/
def First (b sub : BufObj) (start stop r : ℤ) : Prop :=
  match findRange b.byteLen start stop with
  | none => r = -1
  | some range => IsLeast {i | OccursIn b sub range i} r ∨ r = -1 ∧ ∀ i, ¬ OccursIn b sub range i

/-- The range is shorter than `sub`, or has an occurrence of it. -/
def Stops (b sub : BufObj) (start stop : ℤ) : Prop :=
  ∀ range ∈ findRange b.byteLen start stop, range.1 + sub.byteLen ≤ range.2 →
    ∃ i, OccursIn b sub range i

/-! ## One place -/

theorem drop_of_load {data : List UInt8} {p : ℕ} {x : UInt8} (h : Block.load data p = some x) :
    data.drop p = x :: data.drop (p + 1) := by
  rw [Block.load_ofNat] at h
  obtain ⟨hlt, hx⟩ := List.getElem?_eq_some_iff.mp h
  rw [List.drop_eq_getElem_cons hlt, hx]

variable {reads : List ℤ}

/-- A comparison tells whether the pattern is there and reads no byte behind it. -/
theorem compareAt_spec {data sub : List UInt8} {p : ℕ} {eq : Bool}
    (h : compareAt data p sub = some (eq, reads)) :
    (eq = true ↔ sub <+: data.drop p) ∧ ∀ q ∈ reads, q < p + sub.length := by
  induction sub generalizing p eq reads with
  | nil =>
    cases h
    simp
  | cons c sub ih =>
    obtain ⟨x, hx, hrest⟩ := Option.bind_eq_some_iff.mp h
    rw [drop_of_load hx]
    split at hrest
    next hxc =>
      obtain ⟨⟨eq', reads'⟩, hcompare, hres⟩ := Option.map_eq_some_iff.mp hrest
      rw [← Nat.cast_succ] at hcompare
      obtain ⟨hiff, hreads⟩ := ih hcompare
      cases hres
      refine ⟨by simp [hiff, hxc], fun q hq => ?_⟩
      rw [List.length_cons]
      rcases List.mem_cons.mp hq with rfl | hq
      · omega
      · have hlt := hreads q hq
        omega
    next hxc =>
      cases hrest
      refine ⟨by simp [Ne.symm hxc], fun q hq => ?_⟩
      rw [List.mem_singleton.mp hq, List.length_cons]
      omega

/-- A comparison that succeeds reads the last byte of the pattern's place. -/
theorem compareAt_last {data sub : List UInt8} {p : ℕ}
    (h : compareAt data p sub = some (true, reads)) (hne : sub ≠ []) :
    (p + sub.length - 1 : ℤ) ∈ reads := by
  induction sub generalizing p reads with
  | nil => exact absurd rfl hne
  | cons c sub ih =>
    obtain ⟨x, hx, hrest⟩ := Option.bind_eq_some_iff.mp h
    split at hrest
    next hxc =>
      obtain ⟨⟨eq', reads'⟩, hcompare, hres⟩ := Option.map_eq_some_iff.mp hrest
      rw [← Nat.cast_succ] at hcompare
      cases hres
      cases sub with
      | nil =>
        cases hcompare
        simp
      | cons d sub =>
        have hmem := ih hcompare (List.cons_ne_nil _ _)
        have hplace : (p : ℤ) + (c :: d :: sub).length - 1 = p.succ + (d :: sub).length - 1 := by
          simp only [List.length_cons, Nat.cast_succ]
          omega
        exact List.mem_cons_of_mem _ (hplace ▸ hmem)
    next hxc => cases hrest

/-- A comparison within the data ends. -/
theorem compareAt_isSome (data sub : List UInt8) (p : ℕ) (hle : p + sub.length ≤ data.length) :
    ∃ eq reads, compareAt data p sub = some (eq, reads) := by
  induction sub generalizing p with
  | nil => exact ⟨_, _, rfl⟩
  | cons c sub ih =>
    rw [List.length_cons] at hle
    obtain ⟨x, hx, -⟩ := Block.load_of_lt (b := data) (i := p) (by omega) (by omega)
    obtain ⟨eq, reads, hcompare⟩ := ih (p + 1) (by omega)
    rw [Nat.cast_succ] at hcompare
    rw [compareAt, hx, Option.bind_some, hcompare]
    split
    · exact ⟨_, _, rfl⟩
    · exact ⟨_, _, rfl⟩

/-! ## The loop -/

/-- A search that succeeds finds the pattern. -/
theorem searchFrom_occurs {data sub : List UInt8} {fuel p : ℕ} {r : ℤ}
    (hne : sub ≠ []) (h : searchFrom data sub fuel p = some (r, reads)) :
    ∃ i : ℕ, r = i ∧ p ≤ i ∧ sub <+: data.drop i ∧ (i + sub.length - 1 : ℤ) ∈ reads := by
  induction fuel generalizing p r reads with
  | zero => cases h
  | succ fuel ih =>
    obtain ⟨⟨eq, first⟩, hcompare, hrest⟩ := Option.bind_eq_some_iff.mp h
    cases eq with
    | true =>
      cases hrest
      exact ⟨p, rfl, le_rfl, (compareAt_spec hcompare).1.mp rfl, compareAt_last hcompare hne⟩
    | false =>
      obtain ⟨⟨r', more⟩, hmore, hres⟩ := Option.map_eq_some_iff.mp hrest
      rw [← Nat.cast_succ] at hmore
      obtain ⟨i, hi, hle, hoccurs, hlast⟩ := ih hmore
      cases hres
      exact ⟨i, hi, by omega, hoccurs, List.mem_append_right _ hlast⟩

/-- A search finds the first place of the pattern. -/
theorem searchFrom_first {data sub : List UInt8} (fuel p : ℕ) {n : ℕ}
    (hoccurs : sub <+: data.drop (p + n)) (hfirst : ∀ k < n, ¬ sub <+: data.drop (p + k))
    (hfuel : n < fuel) (hle : p + n + sub.length ≤ data.length) :
    ∃ reads, searchFrom data sub fuel p = some (((p + n : ℕ) : ℤ), reads) ∧
      ∀ q ∈ reads, q < p + n + sub.length := by
  induction n generalizing p fuel with
  | zero =>
    obtain ⟨fuel, rfl⟩ := Nat.exists_eq_succ_of_ne_zero hfuel.ne'
    obtain ⟨eq, reads, hcompare⟩ := compareAt_isSome data sub p (by omega)
    obtain ⟨hiff, hreads⟩ := compareAt_spec hcompare
    obtain rfl := hiff.mpr hoccurs
    exact ⟨reads, by simp [searchFrom, hcompare], fun q hq => by simpa using hreads q hq⟩
  | succ n ih =>
    obtain ⟨fuel, rfl⟩ := Nat.exists_eq_succ_of_ne_zero (Nat.ne_zero_of_lt hfuel)
    obtain ⟨eq, reads, hcompare⟩ := compareAt_isSome data sub p (by omega)
    obtain ⟨hiff, hreads⟩ := compareAt_spec hcompare
    obtain rfl : eq = false := by
      rw [← Bool.not_eq_true, hiff]
      exact hfirst 0 (Nat.succ_pos n)
    have hnext (k : ℕ) : p + 1 + k = p + (k + 1) := by omega
    obtain ⟨more, hmore, hlt⟩ := ih fuel (p + 1) (by rwa [hnext])
      (fun k hk => by rw [hnext]; exact hfirst (k + 1) (by omega)) (by omega) (by omega)
    rw [hnext, Nat.cast_succ] at hmore
    refine ⟨reads ++ more, by simp [searchFrom, hcompare, hmore], fun q hq => ?_⟩
    rcases List.mem_append.mp hq with hq | hq
    · have h := hreads q hq
      push_cast
      omega
    · have h := hlt q hq
      push_cast at h ⊢
      omega

/-! ## The search -/

/-- The bytes of the buffer lie in its allocation. -/
structure Readable (b : BufObj) : Prop where
  nonneg : 0 ≤ b.byteLen
  le_data : b.byteLen ≤ b.data.length

variable {b sub : BufObj}

/-- A buffer with the invariant is readable. -/
theorem Inv.readable (hb : b.Inv) : b.Readable :=
  ⟨hb.nonneg, hb.le_alloc.trans hb.le_data⟩

/-- A readable buffer with a length has contents. -/
theorem contents_ne_nil (hsub : sub.Readable) (hpos : 0 < sub.byteLen) : sub.contents ≠ [] := by
  have hdata := hsub.le_data
  rw [← List.length_pos_iff, contents, List.length_take]
  omega

/-- The contents of a readable buffer have its length. -/
theorem length_contents (hb : b.Readable) : (b.contents.length : ℤ) = b.byteLen := by
  have hnonneg := hb.nonneg
  have hdata := hb.le_data
  rw [contents, List.length_take]
  omega

/-- The pattern is in the contents iff it is in the data there. -/
theorem prefix_drop_contents {pat : List UInt8} {i : ℕ} (hle : i + pat.length ≤ b.byteLen) :
    pat <+: b.contents.drop i ↔ pat <+: b.data.drop i := by
  rw [contents, List.drop_take, List.prefix_take_iff]
  exact and_iff_left (by omega)

variable {range : ℤ × ℤ}

/-- The range of a search lies within the buffer. -/
theorem findRange_bounds {blen start stop : ℤ}
    (h : findRange blen start stop = some range) : 0 ≤ range.1 ∧ range.2 ≤ blen := by
  simp only [findRange, Option.ite_none_left_eq_some, Option.some.injEq] at h
  obtain ⟨hnot, rfl⟩ := h
  obtain ⟨hfirst, -⟩ := not_or.mp hnot
  refine ⟨Int.not_lt.mp hfirst, ?_⟩
  generalize (if stop < 0 then stop + (blen + 1) else stop) = last
  show (if blen < last then blen else last) ≤ blen
  split <;> omega

/-- A search for a pattern that occurs finds its first place. -/
theorem search_eq_of_occurs (hb : b.Readable) (hsub : sub.Readable) (h₀ : 0 ≤ range.1)
    (hlast : range.2 ≤ b.byteLen) (hoccurs : ∃ i, OccursIn b sub range i) :
    ∃ r reads, searchFrom b.data sub.contents (b.data.length + 1) range.1 = some (r, reads) ∧
      IsLeast {i | OccursIn b sub range i} r ∧ ∀ q ∈ reads, q < range.2 := by
  have hdata := hb.le_data
  have hlen := length_contents hsub
  obtain ⟨p, hp⟩ := Int.eq_ofNat_of_zero_le h₀
  have hplace : ∀ i, OccursIn b sub range i →
      ∃ n : ℕ, i = (p + n : ℕ) ∧ sub.contents <+: b.data.drop (p + n) := by
    rintro i ⟨hfrom, hto, hprefix⟩
    obtain ⟨n, hn⟩ := Int.eq_ofNat_of_zero_le (show 0 ≤ i - p by omega)
    have hi : i.toNat = p + n := by omega
    rw [hi, prefix_drop_contents (by omega)] at hprefix
    exact ⟨n, by omega, hprefix⟩
  have hex : ∃ n, sub.contents <+: b.data.drop (p + n) := by
    obtain ⟨i, hi⟩ := hoccurs
    obtain ⟨n, -, hn⟩ := hplace i hi
    exact ⟨n, hn⟩
  have hbound : p + Nat.find hex + sub.contents.length ≤ range.2 := by
    obtain ⟨i, hi⟩ := hoccurs
    obtain ⟨n, rfl, hn⟩ := hplace i hi
    have hmin : Nat.find hex ≤ n := Nat.find_min' hex hn
    have hto := hi.2.1
    omega
  obtain ⟨reads, hsearch, hreads⟩ := searchFrom_first (b.data.length + 1) p (Nat.find_spec hex)
    (fun k hk => Nat.find_min hex hk) (by omega) (by omega)
  rw [hp]
  refine ⟨_, reads, hsearch, ⟨⟨by omega, by omega, ?_⟩, ?_⟩, fun q hq => ?_⟩
  · rw [Int.toNat_natCast]
    exact (prefix_drop_contents (by omega)).mpr (Nat.find_spec hex)
  · intro i hi
    obtain ⟨n, rfl, hn⟩ := hplace i hi
    have hmin : Nat.find hex ≤ n := Nat.find_min' hex hn
    omega
  · have hlt := hreads q hq
    omega

/-- A search for a pattern that does not occur reads behind the range. -/
theorem search_behind (hsub : sub.Readable) (hpos : 0 < sub.byteLen)
    (h₀ : 0 ≤ range.1) (hlast : range.2 ≤ b.byteLen) (hnone : ∀ i, ¬ OccursIn b sub range i)
    {fuel : ℕ} {r : ℤ}
    (h : searchFrom b.data sub.contents fuel range.1 = some (r, reads)) :
    ∃ q ∈ reads, range.2 ≤ q := by
  have hlen := length_contents hsub
  obtain ⟨p, hp⟩ := Int.eq_ofNat_of_zero_le h₀
  rw [hp] at h
  obtain ⟨i, -, hle, hprefix, hmem⟩ := searchFrom_occurs (contents_ne_nil hsub hpos) h
  refine ⟨_, hmem, ?_⟩
  by_contra hlt
  refine hnone i ⟨by omega, by omega, ?_⟩
  rw [Int.toNat_natCast]
  exact (prefix_drop_contents (by omega)).mpr hprefix

/-- **The first occurrence in the range** is found, and no byte behind the range is looked at, just
if the range is shorter than `sub` or has an occurrence. -/
theorem find_iff (hb : b.Readable) (hsub : sub.Readable) (hpos : 0 < sub.byteLen) (start stop : ℤ) :
    (∃ r reads, b.find sub start stop = some (r, reads) ∧ First b sub start stop r ∧
      ∀ q ∈ reads, ∀ range ∈ findRange b.byteLen start stop, q < range.2) ↔
      Stops b sub start stop := by
  unfold find First Stops
  cases hrange : findRange b.byteLen start stop with
  | none => simp
  | some range =>
    obtain ⟨hfirst, hlast⟩ := findRange_bounds hrange
    simp only [Option.mem_def, Option.some.injEq, forall_eq']
    rw [if_neg hpos.ne']
    by_cases hshort : range.1 ≤ range.2 - sub.byteLen
    · rw [if_pos hshort]
      constructor
      · rintro ⟨r, reads, hsearch, -, hreads⟩ -
        by_contra hnone
        obtain ⟨q, hq, hle⟩ :=
          search_behind hsub hpos hfirst hlast (not_exists.mp hnone) hsearch
        exact absurd (hreads q hq) hle.not_gt
      · intro hstops
        obtain ⟨r, reads, hsearch, hleast, hreads⟩ :=
          search_eq_of_occurs hb hsub hfirst hlast (hstops (by omega))
        exact ⟨r, reads, hsearch, .inl hleast, hreads⟩
    · rw [if_neg hshort]
      have hnone : ∀ i, ¬ OccursIn b sub range i := fun i hi => hshort (by
        have hi₁ := hi.1
        have hi₂ := hi.2.1
        omega)
      exact ⟨fun _ hlong => absurd hlong (by omega),
        fun _ => ⟨-1, [], rfl, .inr ⟨rfl, hnone⟩, nofun⟩⟩

def ofBytes (bytes : List UInt8) : BufObj where
  data := bytes ++ List.replicate 16 0
  byteLen := bytes.length
  allocLen := bytes.length + 16

/-- A buffer of some bytes meets the invariant. -/
theorem ofBytes_inv {bytes : List UInt8} (h : bytes.length ≤ 2 ^ 29) : (ofBytes bytes).Inv := by
  refine ⟨⟨?_, ?_⟩, ?_, ?_⟩
  all_goals simp [ofBytes]
  omega

theorem find_iff_abcb :
    (∃ r reads, (ofBytes [97, 98, 99, 98]).find (ofBytes [98]) (-3) (-1) = some (r, reads) ∧
      First (ofBytes [97, 98, 99, 98]) (ofBytes [98]) (-3) (-1) r ∧
      ∀ q ∈ reads, ∀ range ∈ findRange (ofBytes [97, 98, 99, 98]).byteLen (-3) (-1),
        q < range.2) ↔
      Stops (ofBytes [97, 98, 99, 98]) (ofBytes [98]) (-3) (-1) :=
  find_iff (ofBytes_inv (by decide)).readable (ofBytes_inv (by decide)).readable (by decide)
    (-3) (-1)

/-- **The search does not stop at the end of the range.** It finds what is behind it. -/
theorem not_find :
    ¬ ∀ (b sub : BufObj) (start stop : ℤ), b.Inv → sub.Inv → 0 < sub.byteLen →
      ∃ r reads, b.find sub start stop = some (r, reads) ∧ First b sub start stop r ∧
        ∀ q ∈ reads, ∀ range ∈ findRange b.byteLen start stop, q < range.2 := by
  intro hall
  obtain ⟨r, reads, hfind, -, hreads⟩ := hall (ofBytes [97, 98, 99]) (ofBytes [99]) 0 2
    (ofBytes_inv (by decide)) (ofBytes_inv (by decide)) (by decide)
  have hrun : (ofBytes [97, 98, 99]).find (ofBytes [99]) 0 2 = some (2, [0, 1, 2]) := by
    decide
  rw [hrun] at hfind
  cases hfind
  exact absurd (hreads 2 (by simp) (0, 2) (by decide)) (by decide)

end BufObj

end N00b.Adts
