/-
  Transport/Scan.lean --- SCAN from cursor 0 to cursor 0.

  A page ends in the middle of a shard or at its end, and the next cursor is a slot of the same
  shard or the first slot of the next one.  Zero is the first slot of the first shard, so it is
  free to mean the end.
-/
import Horreum.Foundation.Paging
import Horreum.Transport.Serving

set_option autoImplicit false

namespace Horreum.Transport

open Foundation
open Foundation.Probing (cell entries occupied)

/-! ## One shard -/

/-- Whether a scan is to return the entry. -/
def Entry.selected (pre : Bytes) (now : UInt32) (e : Entry) : Bool :=
  !e.expired now && pre.isPrefixOf e.key

namespace ShardIndex

variable {H : Hashes} {s : ShardIndex} {pre : Bytes} {now : UInt32} {i : Nat}

/-- The keys that a scan is to return from slot `i` on. -/
def matching (s : ShardIndex) (pre : Bytes) (now : UInt32) (i : Nat) : List Bytes :=
  ((entries (s.slots.drop i)).filter (Entry.selected pre now)).map Entry.key

theorem matching_of_ge (h : s.slots.length ≤ i) : s.matching pre now i = [] := by
  simp [matching, List.drop_eq_nil_of_le h, entries]

theorem matching_step (h : i < s.slots.length) :
    s.matching pre now i =
      (((cell s.slots i).filter (Entry.selected pre now)).map Entry.key).toList ++
        s.matching pre now (i + 1) := by
  have hcell : cell s.slots i = s.slots[i] := by
    simp [cell, h]
  rw [matching, List.drop_eq_getElem_cons h, hcell]
  cases s.slots[i] with
  | none => simp [entries, matching]
  | some e =>
    by_cases hsel : e.selected pre now
    · simp [entries, matching, Option.filter, hsel]
    · simp [entries, matching, Option.filter, hsel]

/-- A page from slot `i` on: all that is left, or a part of it and the slot where the rest
starts. -/
def Takes (s : ShardIndex) (pre : Bytes) (now : UInt32) (i : Nat) (keys : List Bytes)
    (next : Nat) : Prop :=
  next = 0 ∧ s.matching pre now i = keys ∨
    i < next ∧ next < s.slots.length ∧
      s.matching pre now i = keys ++ s.matching pre now next

theorem Takes.cons {i next : Nat} {front keys : List Bytes}
    (h : s.Takes pre now (i + 1) keys next)
    (hfront : s.matching pre now i = front ++ s.matching pre now (i + 1)) :
    s.Takes pre now i (front ++ keys) next := by
  rcases h with ⟨hnext, hall⟩ | ⟨hlt, hin, hsplit⟩
  · exact .inl ⟨hnext, by rw [hfront, hall]⟩
  · exact .inr ⟨by omega, hin, by rw [hfront, hsplit, List.append_assoc]⟩

theorem takes_upTo {keys : List Bytes}
    (hkeys : s.matching pre now i = keys ++ s.matching pre now (i + 1)) :
    s.Takes pre now i keys (if i + 1 ≥ s.slots.length then 0 else i + 1) := by
  split
  · rename_i hend
    rw [matching_of_ge hend, List.append_nil] at hkeys
    exact .inl ⟨rfl, hkeys⟩
  · exact .inr ⟨by omega, by omega, hkeys⟩

theorem scanPrefixLoop_takes {limit : Nat} : ∀ (fuel idx : Nat) (results : List Bytes),
    idx + fuel = s.slots.length → results.length < limit →
    ∃ keys next, s.scanPrefixLoop pre limit now fuel idx results = (results ++ keys, next) ∧
      s.Takes pre now idx keys next
  | 0, idx, results, hidx, _ =>
    ⟨[], 0, by simp [scanPrefixLoop], .inl ⟨rfl, matching_of_ge (by omega)⟩⟩
  | fuel + 1, idx, results, hidx, hlen => by
    have hlt : idx < s.slots.length := by omega
    have hstep : s.matching pre now idx = _ := matching_step hlt
    unfold scanPrefixLoop
    cases hcell : cell s.slots idx with
    | none =>
      rw [hcell] at hstep
      obtain ⟨keys, next, hloop, htakes⟩ :=
        scanPrefixLoop_takes fuel (idx + 1) results (by omega) hlen
      exact ⟨keys, next, hloop, htakes.cons hstep⟩
    | some e =>
      rw [hcell, Option.filter_some] at hstep
      change ∃ keys next, (if e.selected pre now = true then _ else _) = _ ∧ _
      by_cases hsel : e.selected pre now = true
      · rw [if_pos hsel] at hstep ⊢
        dsimp only
        by_cases hfull : (results ++ [e.key]).length ≥ limit
        · rw [if_pos hfull]
          exact ⟨[e.key], _, rfl, takes_upTo hstep⟩
        · rw [if_neg hfull]
          have hroom : (results ++ [e.key]).length < limit := by omega
          obtain ⟨keys, next, hloop, htakes⟩ :=
            scanPrefixLoop_takes fuel (idx + 1) (results ++ [e.key]) (by omega) hroom
          exact ⟨[e.key] ++ keys, next, by rw [hloop, List.append_assoc],
            htakes.cons hstep⟩
      · rw [if_neg hsel] at hstep ⊢
        obtain ⟨keys, next, hloop, htakes⟩ :=
          scanPrefixLoop_takes fuel (idx + 1) results (by omega) hlen
        exact ⟨keys, next, hloop, htakes.cons hstep⟩

theorem scanPrefix_takes (hwf : s.Wf H.hashKey) (cursor : Nat) {limit : Int}
    (hlimit : 1 ≤ limit) :
    ∃ keys next, s.scanPrefix pre cursor limit now = (keys, next) ∧
      s.Takes pre now cursor keys next := by
  unfold scanPrefix
  split
  · have hzero : occupied s.slots = 0 := by
      have := hwf.count_eq
      omega
    rw [Probing.occupied, List.countP_eq_zero] at hzero
    refine ⟨[], 0, rfl, .inl ⟨rfl, ?_⟩⟩
    have hnone : entries (s.slots.drop cursor) = [] := by
      rw [entries, List.filterMap_eq_nil_iff]
      intro a ha
      simpa using hzero a (List.mem_of_mem_drop ha)
    rw [matching, hnone, List.filter_nil, List.map_nil]
  · split
    · rename_i hge
      exact ⟨[], 0, rfl, .inl ⟨rfl, matching_of_ge hge⟩⟩
    · exact scanPrefixLoop_takes (s.slots.length - cursor) cursor [] (by omega)
        (by rw [List.length_nil]; omega)

theorem mem_matching (hwf : s.Wf H.hashKey) {k : Bytes} :
    k ∈ s.matching pre now 0 ↔
      (∃ e, s.lookup k = some e ∧ e.expired now = false) ∧ pre <+: k := by
  simp only [matching, List.drop_zero, List.mem_map, List.mem_filter, Entry.selected,
    Bool.and_eq_true, Bool.not_eq_true', List.isPrefixOf_iff_prefix]
  constructor
  · rintro ⟨e, ⟨hmem, hexp, hpre⟩, rfl⟩
    refine ⟨⟨e, ?_, hexp⟩, hpre⟩
    exact hwf.probing.lookup_eq_some.mpr ⟨Probing.mem_entries.mp hmem, rfl⟩
  · rintro ⟨⟨e, hlook, hexp⟩, hpre⟩
    obtain ⟨hcell, rfl⟩ := hwf.probing.lookup_eq_some.mp hlook
    exact ⟨e, ⟨Probing.mem_entries.mpr hcell, hexp, hpre⟩, rfl⟩

theorem nodup_matching (hwf : s.Wf H.hashKey) : (s.matching pre now 0).Nodup := by
  rw [matching, List.drop_zero]
  exact hwf.probing.nodup_keys.sublist (List.filter_sublist.map Entry.key)

end ShardIndex

/-! ## All shards -/

namespace ShardSet

variable {H : Hashes} {ss : ShardSet} {pre : Bytes} {now : UInt32} {i j : Nat} {count : Int}

/-- The upper 16 bits of a cursor. -/
def shardOf (cursor : UInt64) : Nat := (cursor >>> 48).toNat

/-- The lower 48 bits of a cursor. -/
def slotOf (cursor : UInt64) : Nat := (cursor &&& 0x0000FFFFFFFFFFFF).toNat

/-- The cursor of a slot. -/
def cursorAt (shard slot : Nat) : UInt64 := (UInt64.ofNat shard <<< 48) ||| UInt64.ofNat slot

theorem shardOf_eq (cursor : UInt64) : shardOf cursor = cursor.toNat / 2 ^ 48 := by
  rw [shardOf, UInt64.toNat_shiftRight]
  exact Nat.shiftRight_eq_div_pow _ 48

theorem slotOf_eq (cursor : UInt64) : slotOf cursor = cursor.toNat % 2 ^ 48 := by
  rw [slotOf, UInt64.toNat_and]
  exact Nat.and_two_pow_sub_one_eq_mod _ 48

theorem toNat_cursorAt (hi : i < 2 ^ 16) (hj : j < 2 ^ 48) :
    (cursorAt i j).toNat = i * 2 ^ 48 + j := by
  have hshift : i <<< 48 = i * 2 ^ 48 := Nat.shiftLeft_eq i 48
  have hsmall : i % 2 ^ 64 = i := Nat.mod_eq_of_lt (by omega)
  have hslot : j % 2 ^ 64 = j := Nat.mod_eq_of_lt (by omega)
  have hword : i <<< 48 % 2 ^ 64 = i <<< 48 := Nat.mod_eq_of_lt (by omega)
  have hor : i <<< 48 ||| j = i <<< 48 + j := (Nat.shiftLeft_add_eq_or_of_lt hj i).symm
  rw [cursorAt, UInt64.toNat_or, UInt64.toNat_shiftLeft, UInt64.toNat_ofNat', UInt64.toNat_ofNat',
    hsmall, hslot]
  change i <<< 48 % 2 ^ 64 ||| j = _
  rw [hword, hor, hshift]

theorem shardOf_cursorAt (hi : i < 2 ^ 16) (hj : j < 2 ^ 48) : shardOf (cursorAt i j) = i := by
  rw [shardOf_eq, toNat_cursorAt hi hj]
  omega

theorem slotOf_cursorAt (hi : i < 2 ^ 16) (hj : j < 2 ^ 48) : slotOf (cursorAt i j) = j := by
  rw [slotOf_eq, toNat_cursorAt hi hj]
  omega

theorem cursorAt_ne_zero (hi : i < 2 ^ 16) (hj : j < 2 ^ 48) (hpos : 0 < i + j) :
    cursorAt i j ≠ 0 := by
  intro hzero
  have hnat := congrArg UInt64.toNat hzero
  rw [toNat_cursorAt hi hj, UInt64.toNat_zero] at hnat
  omega

/-- What is left from slot `j` of the first of these shards on. -/
def leftFrom (pre : Bytes) (now : UInt32) : List Shard → Nat → List Bytes
  | [], _ => []
  | sh :: shards, j =>
    sh.idx.matching pre now j ++ shards.flatMap fun sh => sh.idx.matching pre now 0

/-- A bound on the number of pages from there on. -/
def sizeFrom : List Shard → Nat → Nat
  | [], _ => 0
  | sh :: shards, j =>
    sh.idx.slots.length - j + (shards.map fun sh => sh.idx.slots.length + 1).sum

theorem leftFrom_zero (shards : List Shard) :
    leftFrom pre now shards 0 = shards.flatMap fun sh => sh.idx.matching pre now 0 := by
  cases shards with
  | nil => rfl
  | cons sh shards => rw [leftFrom, List.flatMap_cons]

theorem sizeFrom_zero_lt {shards : List Shard} (h : shards ≠ []) :
    sizeFrom shards 0 < (shards.map fun sh => sh.idx.slots.length + 1).sum := by
  cases shards with
  | nil => exact absurd rfl h
  | cons sh shards =>
    simp only [sizeFrom, List.map_cons, List.sum_cons]
    omega

/-- The keys that a scan has still to list. -/
def left (ss : ShardSet) (pre : Bytes) (now : UInt32) (cursor : UInt64) : List Bytes :=
  leftFrom pre now (ss.shards.drop (shardOf cursor)) (slotOf cursor)

/-- The slots that it has still to look at. -/
def size (ss : ShardSet) (cursor : UInt64) : Nat :=
  sizeFrom (ss.shards.drop (shardOf cursor)) (slotOf cursor)

theorem left_cursorAt (hi : i < 2 ^ 16) (hj : j < 2 ^ 48) :
    ss.left pre now (cursorAt i j) = leftFrom pre now (ss.shards.drop i) j := by
  rw [left, shardOf_cursorAt hi hj, slotOf_cursorAt hi hj]

theorem size_cursorAt (hi : i < 2 ^ 16) (hj : j < 2 ^ 48) :
    ss.size (cursorAt i j) = sizeFrom (ss.shards.drop i) j := by
  rw [size, shardOf_cursorAt hi hj, slotOf_cursorAt hi hj]

/-- A table has at most as many slots as a cursor can tell apart.  The source cannot make a
larger one: its keys alone would take more than the address space. -/
def Addressable (ss : ShardSet) : Prop := ∀ sh ∈ ss.shards, sh.idx.slots.length ≤ 2 ^ 48

theorem scan_eq {cursor : UInt64} {sh : Shard} {keys : List Bytes} {next : Nat}
    (hsh : ss.shards[shardOf cursor]? = some sh)
    (hpage : sh.idx.scanPrefix pre (slotOf cursor) count now = (keys, next)) :
    ss.scan pre cursor count now = (keys,
      if next = 0 then
        if shardOf cursor + 1 ≥ ss.shards.length then 0 else cursorAt (shardOf cursor + 1) 0
      else cursorAt (shardOf cursor) next) := by
  have hzero : ∀ i, cursorAt i 0 = UInt64.ofNat i <<< 48 := fun i => UInt64.or_zero
  unfold shardOf at hsh
  unfold slotOf at hpage
  simp only [scan, hsh, hpage, hzero]
  rfl

/-- One page: the last one, or one with more behind it. -/
theorem scan_splits (hs : ss.Sound H) (hshards : ss.shards.length ≤ 65536)
    (hmem : ss.Addressable) (hcount : 1 ≤ count) (cursor : UInt64) :
    ∃ keys next, ss.scan pre cursor count now = (keys, next) ∧
      (next = 0 ∧ ss.left pre now cursor = keys ∨
        next ≠ 0 ∧ ss.left pre now cursor = keys ++ ss.left pre now next ∧
          ss.size next < ss.size cursor) := by
  cases hsh : ss.shards[shardOf cursor]? with
  | none =>
    have hend : ss.shards.drop (shardOf cursor) = [] :=
      List.drop_eq_nil_of_le (List.getElem?_eq_none_iff.mp hsh)
    refine ⟨[], 0, ?_, .inl ⟨rfl, by rw [left, hend, leftFrom]⟩⟩
    unfold shardOf at hsh
    simp only [scan, hsh]
  | some sh =>
    obtain ⟨hlt, hget⟩ := List.getElem?_eq_some_iff.mp hsh
    have hdrop : ss.shards.drop (shardOf cursor) =
        sh :: ss.shards.drop (shardOf cursor + 1) := by
      rw [List.drop_eq_getElem_cons hlt, hget]
    have hleft : ss.left pre now cursor = sh.idx.matching pre now (slotOf cursor) ++
        leftFrom pre now (ss.shards.drop (shardOf cursor + 1)) 0 := by
      rw [left, hdrop, leftFrom, leftFrom_zero]
    have hsize : ss.size cursor = sh.idx.slots.length - slotOf cursor +
        ((ss.shards.drop (shardOf cursor + 1)).map fun sh => sh.idx.slots.length + 1).sum := by
      rw [size, hdrop, sizeFrom]
    obtain ⟨keys, next, hpage, ⟨rfl, hall⟩ | ⟨hslot, hin, hsplit⟩⟩ :=
      ShardIndex.scanPrefix_takes (hs.wf _ sh hsh) (slotOf cursor) hcount
    · by_cases hlast : shardOf cursor + 1 ≥ ss.shards.length
      · refine ⟨keys, 0, by rw [scan_eq hsh hpage, if_pos rfl, if_pos hlast], .inl ⟨rfl, ?_⟩⟩
        rw [hleft, hall, List.drop_eq_nil_of_le hlast, leftFrom, List.append_nil]
      · have hi : shardOf cursor + 1 < 2 ^ 16 := by omega
        have hj : 0 < 2 ^ 48 := by omega
        have hmore : ss.shards.drop (shardOf cursor + 1) ≠ [] := by
          rw [ne_eq, List.drop_eq_nil_iff]
          exact hlast
        refine ⟨keys, cursorAt (shardOf cursor + 1) 0,
          by rw [scan_eq hsh hpage, if_pos rfl, if_neg hlast],
          .inr ⟨cursorAt_ne_zero hi hj (by omega), ?_, ?_⟩⟩
        · rw [hleft, hall, left_cursorAt hi hj]
        · have hfewer := sizeFrom_zero_lt hmore
          rw [hsize, size_cursorAt hi hj]
          omega
    · have hi : shardOf cursor < 2 ^ 16 := by omega
      have hj : next < 2 ^ 48 := by
        have := hmem sh (List.mem_of_getElem? hsh)
        omega
      refine ⟨keys, cursorAt (shardOf cursor) next,
        by rw [scan_eq hsh hpage, if_neg (by omega)],
        .inr ⟨cursorAt_ne_zero hi hj (by omega), ?_, ?_⟩⟩
      · rw [hleft, hsplit, left_cursorAt hi hj, hdrop, leftFrom, leftFrom_zero,
          List.append_assoc]
      · rw [hsize, size_cursorAt hi hj, hdrop, sizeFrom]
        omega

/-! ## The whole iteration -/

/-- Call `Scan` with the cursor that the last call returned, until that is zero. -/
def scanAll (ss : ShardSet) (pre : Bytes) (count : Int) (now : UInt32) (fuel : Nat)
    (cursor : UInt64) : Option (List (List Bytes)) :=
  pagesFrom (fun cursor => ss.scan pre cursor count now) 0 fuel cursor

/-- Some shard has the key, and it is not expired. -/
def Live (ss : ShardSet) (now : UInt32) (k : Bytes) : Prop :=
  ∃ sh ∈ ss.shards, ∃ e, sh.idx.lookup k = some e ∧ e.expired now = false

theorem left_zero : ss.left pre now 0 = ss.shards.flatMap fun sh => sh.idx.matching pre now 0 :=
  leftFrom_zero ss.shards

theorem scanAll_flatten (hs : ss.Sound H) (hshards : ss.shards.length ≤ 65536)
    (hmem : ss.Addressable) (hcount : 1 ≤ count) :
    ∃ fuel pages, ss.scanAll pre count now fuel 0 = some pages ∧
      pages.flatten = ss.shards.flatMap fun sh => sh.idx.matching pre now 0 := by
  have hsplits := @scan_splits H ss pre now count hs hshards hmem hcount
  rw [← left_zero]
  refine ⟨ss.size 0 + 1, pagesFrom_flatten (ss.left pre now) ss.size (fun c hend => ?_)
    (fun c hmore => ?_) _ 0 (Nat.lt_succ_self _)⟩
  · obtain ⟨keys, next, hscan, ⟨_, hall⟩ | ⟨hne, _⟩⟩ := hsplits c
    · rw [hall, hscan]
    · rw [hscan] at hend
      exact absurd hend hne
  · obtain ⟨keys, next, hscan, ⟨hzero, _⟩ | ⟨_, hsplit⟩⟩ := hsplits c
    · rw [hscan] at hmore
      exact absurd hzero hmore
    · rw [hscan]
      exact hsplit

theorem nodup_matching (hs : ss.Sound H) :
    (ss.shards.flatMap fun sh => sh.idx.matching pre now 0).Nodup := by
  rw [List.nodup_flatMap]
  refine ⟨fun sh hmem => ?_, ?_⟩
  · obtain ⟨i, hi⟩ := List.mem_iff_getElem?.mp hmem
    exact ShardIndex.nodup_matching (hs.wf i sh hi)
  · rw [List.pairwise_iff_getElem]
    intro i j hi hj hij k hki hkj
    have hgi := List.getElem?_eq_getElem hi
    have hgj := List.getElem?_eq_getElem hj
    obtain ⟨⟨e, he, _⟩, _⟩ := (ShardIndex.mem_matching (hs.wf i _ hgi)).mp hki
    obtain ⟨⟨e', he', _⟩, _⟩ := (ShardIndex.mem_matching (hs.wf j _ hgj)).mp hkj
    have hroute := hs.routed i _ k e hgi he
    have hroute' := hs.routed j _ k e' hgj he'
    omega

theorem mem_matching (hs : ss.Sound H) {k : Bytes} :
    (k ∈ ss.shards.flatMap fun sh => sh.idx.matching pre now 0) ↔ ss.Live now k ∧ pre <+: k := by
  have hshard : ∀ sh ∈ ss.shards, k ∈ sh.idx.matching pre now 0 ↔
      (∃ e, sh.idx.lookup k = some e ∧ e.expired now = false) ∧ pre <+: k := by
    intro sh hmem
    obtain ⟨i, hi⟩ := List.mem_iff_getElem?.mp hmem
    exact ShardIndex.mem_matching (hs.wf i sh hi)
  rw [List.mem_flatMap]
  constructor
  · rintro ⟨sh, hmem, hk⟩
    obtain ⟨hlive, hpre⟩ := (hshard sh hmem).mp hk
    exact ⟨⟨sh, hmem, hlive⟩, hpre⟩
  · rintro ⟨⟨sh, hmem, hlive⟩, hpre⟩
    exact ⟨sh, hmem, (hshard sh hmem).mpr ⟨hlive, hpre⟩⟩

/-- Whatever the workers have done before: an iteration ends, and its pages together hold every
unexpired key with the prefix once, and nothing else. -/
theorem scan_complete {ss₀ : ShardSet} {jobs : List Job} (hfresh : ss₀.Fresh)
    (hrun : run (serve H) ss₀ jobs = some ss) (hshards : ss.shards.length ≤ 65536)
    (hmem : ss.Addressable) (pre : Bytes) {count : Int} (hcount : 1 ≤ count) (now : UInt32) :
    ∃ fuel pages, ss.scanAll pre count now fuel 0 = some pages ∧ pages.flatten.Nodup ∧
      ∀ k, k ∈ pages.flatten ↔ ss.Live now k ∧ pre <+: k := by
  have hs : ss.Sound H := sound_of_run hfresh hrun
  obtain ⟨fuel, pages, hpages, hflat⟩ := scanAll_flatten hs hshards hmem hcount
  exact ⟨fuel, pages, hpages, hflat ▸ nodup_matching hs, fun k => hflat ▸ mem_matching hs⟩

/-- Two shards with a key in each, and pages of one key: four pages, two of them empty. -/
theorem scan_complete_two_shards :
    ∃ ss₀ ss, newShardSet 1 2 256 1 .noop .noop = some ss₀ ∧
      run (serve Hashes.source) ss₀
        [.frame ⟨0, none, true⟩ ⟨.set, 0, [97], [1]⟩ .nil 0,
          .frame ⟨0, none, true⟩ ⟨.set, 0, [98], [2]⟩ .nil 1] = some ss ∧
      ss.scanAll [] 1 0 4 0 = some [[[97]], [], [[98]], []] ∧
      ∃ fuel pages, ss.scanAll [] 1 0 fuel 0 = some pages ∧ pages.flatten.Nodup ∧
        ∀ k, k ∈ pages.flatten ↔ ss.Live 0 k ∧ [] <+: k := by
  obtain ⟨ss₀, hnew, ss, hrun, hpages, hshards, hmem⟩ : ∃ ss₀,
      newShardSet 1 2 256 1 .noop .noop = some ss₀ ∧ ∃ ss, run (serve Hashes.source) ss₀
        [.frame ⟨0, none, true⟩ ⟨.set, 0, [97], [1]⟩ .nil 0,
          .frame ⟨0, none, true⟩ ⟨.set, 0, [98], [2]⟩ .nil 1] = some ss ∧
        ss.scanAll [] 1 0 4 0 = some [[[97]], [], [[98]], []] ∧ ss.shards.length ≤ 65536 ∧
        ∀ sh ∈ ss.shards, sh.idx.slots.length ≤ 2 ^ 48 := by
    decide +kernel
  exact ⟨ss₀, ss, hnew, hrun, hpages,
    scan_complete (.inl ⟨1, 2, 256, 1, .noop, .noop, hnew⟩) hrun hshards hmem [] (by decide) 0⟩

end ShardSet

end Horreum.Transport
