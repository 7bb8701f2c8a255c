import GossipMesh.Overlay.Clusters

/-!
# Reclassification partitions the peers

Every index and every division of `Reclassify` is in range, and the two lists
it leaves are a partition of exactly as many of the nearest peers, cluster by
cluster, as the configuration allows.
-/

namespace GossipMesh

open GossipMesh.Foundation

theorem goInt_of_lt {x : Int} (h : 0 ≤ x) (hlt : x < 2 ^ 63) : goInt x = x := by
  unfold goInt
  rw [Int.bmod_def]
  omega

theorem goInt_of_overflow {x : Int} (h : 2 ^ 63 ≤ x) (hlt : x < 2 ^ 64) : goInt x < 0 := by
  unfold goInt
  rw [Int.bmod_def]
  omega

structure OverlayConfig.Positive (cfg : OverlayConfig) : Prop where
  minEager : 0 < cfg.minEagerPeers
  maxEager : 0 < cfg.maxEagerPeers
  minLazy : 0 < cfg.minLazyPeers
  maxLazy : 0 < cfg.maxLazyPeers

private theorem orDefault_pos (value : Int) {default : Int} (h : 0 < default) :
    0 < orDefault value default := by
  unfold orDefault
  split <;> omega

theorem OverlayConfig.withDefaults_positive (cfg : OverlayConfig) :
    cfg.withDefaults.Positive where
  minEager := orDefault_pos _ (by decide)
  maxEager := orDefault_pos _ (by decide)
  minLazy := orDefault_pos _ (by decide)
  maxLazy := orDefault_pos _ (by decide)

/-! ## Flagged parts of a list -/

section Flagged

variable {α : Type}

theorem flagged_cons (value flag : Bool) (x : α) (xs : List α) (flags : List Bool) :
    flagged value (x :: xs) (flag :: flags) =
      if flag = value then x :: flagged value xs flags else flagged value xs flags := by
  by_cases h : flag = value <;> simp [flagged, h]

theorem flagged_length {value : Bool} {xs : List α} {flags : List Bool}
    (h : flags.length = xs.length) :
    (flagged value xs flags).length = flags.count value := by
  induction xs generalizing flags with
  | nil =>
      rw [List.length_eq_zero_iff.mp h]
      rfl
  | cons x xs ih =>
      cases flags with
      | nil => simp at h
      | cons flag flags =>
          have hrest := ih (by simpa using h)
          rw [flagged_cons, List.count_cons]
          by_cases hflag : flag = value <;> simp [hflag, hrest]

theorem flagged_sublist (value : Bool) (xs : List α) (flags : List Bool) :
    (flagged value xs flags).Sublist xs := by
  induction xs generalizing flags with
  | nil => simp [flagged]
  | cons x xs ih =>
      cases flags with
      | nil => simp [flagged]
      | cons flag flags =>
          rw [flagged_cons]
          split
          · exact (ih flags).cons_cons x
          · exact (ih flags).cons x

theorem flagged_perm {xs : List α} {flags : List Bool} (h : flags.length = xs.length) :
    (flagged true xs flags ++ flagged false xs flags).Perm xs := by
  induction xs generalizing flags with
  | nil => simp [flagged]
  | cons x xs ih =>
      cases flags with
      | nil => simp at h
      | cons flag flags =>
          have hrest := ih (by simpa using h)
          rw [flagged_cons, flagged_cons]
          cases flag with
          | true => simpa using hrest.cons x
          | false => simpa using List.perm_middle.trans (hrest.cons x)

theorem mem_flagged {value : Bool} {xs : List α} {flags : List Bool} {x : α}
    (h : x ∈ flagged value xs flags) :
    ∃ i : Nat, xs[i]? = some x ∧ flags[i]? = some value := by
  obtain ⟨⟨x', flag⟩, hmem, rfl⟩ := List.mem_map.mp h
  obtain ⟨hzip, hvalue⟩ := List.mem_filter.mp hmem
  obtain ⟨i, hi⟩ := List.mem_iff_getElem?.mp hzip
  obtain ⟨hx, hflag⟩ := List.getElem?_zip_eq_some.mp hi
  exact ⟨i, hx, by rw [hflag, eq_of_beq hvalue]⟩

theorem flagged_nil_iff (value : Bool) {xs : List α} {flags : List Bool}
    (h : flags.length = xs.length) :
    flagged value xs flags = [] ↔ ∀ flag ∈ flags, flag = !value := by
  rw [← List.length_eq_zero_iff, flagged_length h, List.count_eq_zero]
  constructor
  · intro hnot flag hflag
    by_contra hne
    exact hnot (by simpa [Bool.not_eq_not.mp hne] using hflag)
  · intro hall hmem
    have := hall value hmem
    cases value <;> cases this

end Flagged

/-! ## The cap -/

private theorem selectDiversePeers_eq {peers : List PeerInfo} {totalMax : Int}
    (hmax : 0 ≤ totalMax) (hmany : totalMax < peers.length) :
    ∃ kept, selectDiversePeers peers totalMax = some kept ∧ kept.Sublist peers ∧
      (kept.length : Int) = totalMax := by
  unfold selectDiversePeers
  dsimp only
  split
  · refine ⟨_, if_pos ⟨hmax, by omega⟩, List.take_sublist _ _, ?_⟩
    rw [List.length_take]
    omega
  · obtain ⟨m, flags, hsample, hm, hflags, hcount⟩ := sampleClusters_eq peers hmax
    have hlen : flags.length = peers.length := by
      rw [hflags]
      simp [hm]
    refine ⟨flagged true peers flags, by simp [hsample], flagged_sublist _ _ _, ?_⟩
    rw [flagged_length hlen]
    omega

theorem capPeers_eq (cfg : OverlayConfig) (peers : List PeerInfo)
    (hmax : 0 ≤ goInt (cfg.maxEagerPeers + cfg.maxLazyPeers)) :
    ∃ kept, capPeers cfg peers = some kept ∧ kept.Sublist peers ∧
      (kept.length : Int) =
        min (peers.length : Int) (goInt (cfg.maxEagerPeers + cfg.maxLazyPeers)) := by
  unfold capPeers
  dsimp only
  split
  · next hmany =>
      obtain ⟨kept, hkept, hsub, hlen⟩ := selectDiversePeers_eq hmax hmany
      exact ⟨kept, hkept, hsub, by omega⟩
  · exact ⟨peers, rfl, List.Sublist.refl _, by omega⟩

theorem capPeers_sublist {cfg : OverlayConfig} {peers kept : List PeerInfo}
    (h : capPeers cfg peers = some kept) : kept.Sublist peers := by
  unfold capPeers selectDiversePeers at h
  dsimp only at h
  split at h
  · split at h
    · split at h
      · cases h
        exact List.take_sublist _ _
      · cases h
    · obtain ⟨flags, -, hflags⟩ := Option.bind_eq_some_iff.mp h
      cases hflags
      exact flagged_sublist _ _ _
  · cases h
    exact List.Sublist.refl _

/-! ## The single-cluster split -/

def gapAt (peers : List PeerInfo) (i : Nat) : Int64 :=
  match peers[i]?, peers[i - 1]? with
  | some p, some q => p.rtt - q.rtt
  | _, _ => 0

def largestGap (peers : List PeerInfo) (lo count : Nat) (best : Int64 × Int) :
    Int64 × Int :=
  (List.range' lo count).foldl
    (fun best i => if best.1 < gapAt peers i then (gapAt peers i, (i : Int)) else best) best

private theorem gapTurn_eq {peers : List PeerInfo} {i : Nat} (hi : i < peers.length)
    (best : Int64 × Int) :
    gapTurn peers best i =
      some (if best.1 < gapAt peers i then (gapAt peers i, (i : Int)) else best) := by
  have hi' : i - 1 < peers.length := by omega
  simp only [gapTurn, gapAt, List.getElem?_eq_getElem hi, List.getElem?_eq_getElem hi',
    Option.bind_eq_bind, Option.bind_some]
  split <;> rfl

private theorem foldlM_gapTurn {peers : List PeerInfo} {is : List Nat}
    (his : ∀ i ∈ is, i < peers.length) (best : Int64 × Int) :
    is.foldlM (gapTurn peers) best = some (is.foldl
      (fun best i => if best.1 < gapAt peers i then (gapAt peers i, (i : Int)) else best)
      best) := by
  induction is generalizing best with
  | nil => rfl
  | cons i is ih =>
      rw [List.foldlM_cons, gapTurn_eq (his i (by simp)), List.foldl_cons]
      exact ih (fun j hj => his j (by simp [hj])) _

/-- `findRTTGap` without its panics. -/
def gapIndex (cfg : OverlayConfig) (peers : List PeerInfo) : Int :=
  let n : Int := peers.length
  if n ≤ goInt (cfg.minEagerPeers + cfg.minLazyPeers) then min cfg.minEagerPeers n
  else
    let best := largestGap peers cfg.minEagerPeers.toNat
      (n - cfg.minLazyPeers - cfg.minEagerPeers).toNat (0, cfg.minEagerPeers)
    if best.1 < rttGapThreshold then min n cfg.maxEagerPeers else best.2

private theorem findRTTGap_eq {cfg : OverlayConfig} (hcfg : cfg.Positive) (peers : List PeerInfo) :
    findRTTGap cfg peers = some (gapIndex cfg peers) := by
  have hminEager := hcfg.minEager
  have hminLazy := hcfg.minLazy
  unfold findRTTGap gapIndex
  dsimp only
  split
  · rfl
  · rw [if_neg (show ¬ cfg.minEagerPeers < 1 by omega),
      if_neg (show ¬ (peers.length : Int) - cfg.minLazyPeers > peers.length by omega)]
    rw [foldlM_gapTurn (by
      intro i hi
      rw [List.mem_range'_1] at hi
      omega)]
    rw [← largestGap, Option.bind_eq_bind, Option.bind_some]
    split
    · split <;> congr 1 <;> omega
    · rfl

/-! ## Eager flags -/

theorem clampGap_bounds {cfg : OverlayConfig} (hcfg : cfg.Positive) {n : Int} (hn : 0 ≤ n)
    (gapIdx : Int) : 0 ≤ clampGap cfg n gapIdx ∧ clampGap cfg n gapIdx ≤ n := by
  have hminLazy := hcfg.minLazy
  unfold clampGap
  dsimp only
  grind

theorem selectEager_single {cfg : OverlayConfig} (hcfg : cfg.Positive) {peers : List PeerInfo}
    (hone : (rttClusters peers).length ≤ 1) :
    selectEager cfg peers = some
      (List.replicate (clampGap cfg peers.length (gapIndex cfg peers)).toNat true ++
        List.replicate
          ((peers.length : Int) - clampGap cfg peers.length (gapIndex cfg peers)).toNat false) := by
  have hbounds := clampGap_bounds hcfg (Int.natCast_nonneg peers.length) (gapIndex cfg peers)
  unfold selectEager
  dsimp only
  rw [findRTTClusters_length, if_pos hone, findRTTGap_eq hcfg, Option.bind_eq_bind,
    Option.bind_some, if_pos hbounds.2]

/-- The budget of the branch for several clusters. -/
def eagerBudget (cfg : OverlayConfig) (n : Nat) : Int :=
  max 0 (min cfg.maxEagerPeers ((n : Int) - cfg.minLazyPeers))

theorem selectEager_multiple {cfg : OverlayConfig} {peers : List PeerInfo}
    (hmany : ¬ (rttClusters peers).length ≤ 1) :
    selectEager cfg peers =
      sampleClusters (findRTTClusters peers) (eagerBudget cfg peers.length) peers.length := by
  unfold selectEager eagerBudget
  dsimp only
  rw [findRTTClusters_length, if_neg hmany]
  congr 1
  grind

theorem selectEager_eq {cfg : OverlayConfig} (hcfg : cfg.Positive) (peers : List PeerInfo) :
    ∃ flags, selectEager cfg peers = some flags ∧ flags.length = peers.length ∧
      (flags.count true : Int) =
        if (rttClusters peers).length ≤ 1 then clampGap cfg peers.length (gapIndex cfg peers)
        else eagerBudget cfg peers.length := by
  by_cases hone : (rttClusters peers).length ≤ 1
  · have hbounds := clampGap_bounds hcfg (Int.natCast_nonneg peers.length) (gapIndex cfg peers)
    refine ⟨_, selectEager_single hcfg hone, ?_, ?_⟩
    · rw [List.length_append, List.length_replicate, List.length_replicate]
      omega
    · rw [if_pos hone, List.count_append, List.count_replicate_self, List.count_replicate]
      simp
      omega
  · have hminLazy := hcfg.minLazy
    have hbudget : 0 ≤ eagerBudget cfg peers.length := by
      unfold eagerBudget
      omega
    have hcap : eagerBudget cfg peers.length ≤ peers.length := by
      unfold eagerBudget
      omega
    obtain ⟨m, flags, hsample, hm, hflags, hcount⟩ := sampleClusters_eq peers hbudget
    refine ⟨flags, by rw [selectEager_multiple hone, hsample], ?_, ?_⟩
    · rw [hflags]
      simp [hm]
    · rw [if_neg hone, hcount]
      omega

/-! ## Reclassification -/

def OverlayPeer.info (p : OverlayPeer) : PeerInfo := ⟨p.nodeID, p.addr, p.rtt⟩

@[simp] theorem info_classify (isEager : Bool) (p : PeerInfo) :
    (classify isEager p).info = p := rfl

namespace Overlay

def others (o : Overlay) (peers : List PeerInfo) : List PeerInfo :=
  peers.filter fun p => p.nodeID ≠ o.self

theorem reclassify_alone {o : Overlay} (sorter : SortSlice) {peers : List PeerInfo}
    (hnone : o.others peers = []) :
    o.reclassify sorter peers = some { o with eagerPeers := [], lazyPeers := [] } := by
  unfold reclassify
  exact if_pos (List.length_eq_zero_iff.mpr hnone)

theorem reclassify_others {o : Overlay} (sorter : SortSlice) {peers : List PeerInfo}
    (hsome : o.others peers ≠ []) :
    o.reclassify sorter peers =
      (capPeers o.cfg (sorter.sort (o.others peers))).bind fun kept =>
        (selectEager o.cfg kept).bind fun isEager => some { o with
          eagerPeers := (flagged true kept isEager).map (classify true)
          lazyPeers := (flagged false kept isEager).map (classify false) } := by
  unfold reclassify
  exact if_neg fun h => hsome (List.length_eq_zero_iff.mp h)

private theorem capPeers_nil {cfg : OverlayConfig} {kept : List PeerInfo}
    (h : capPeers cfg [] = some kept) : kept = [] := by
  unfold capPeers at h
  dsimp only at h
  split at h
  · next hneg =>
      rw [selectDiversePeers, if_pos (by simp [findRTTClusters]),
        if_neg (by simp at hneg; omega)] at h
      cases h
  · cases h
    rfl

theorem reclassify_eq {o : Overlay} (hcfg : o.cfg.Positive) (sorter : SortSlice)
    {peers kept : List PeerInfo}
    (hkept : capPeers o.cfg (sorter.sort (o.others peers)) = some kept) :
    ∃ flags, selectEager o.cfg kept = some flags ∧ flags.length = kept.length ∧
      o.reclassify sorter peers = some { o with
        eagerPeers := (flagged true kept flags).map (classify true)
        lazyPeers := (flagged false kept flags).map (classify false) } := by
  obtain ⟨flags, hflags, hlen, -⟩ := selectEager_eq hcfg kept
  refine ⟨flags, hflags, hlen, ?_⟩
  by_cases hnone : o.others peers = []
  · rw [hnone, List.perm_nil.mp (sorter.perm [])] at hkept
    have hempty := capPeers_nil hkept
    subst hempty
    rw [reclassify_alone sorter hnone]
    simp [flagged]
  · rw [reclassify_others sorter hnone, hkept, Option.bind_some, hflags, Option.bind_some]

theorem sort_length (sorter : SortSlice) (peers : List PeerInfo) :
    (sorter.sort peers).length = peers.length :=
  (sorter.perm peers).length_eq

private theorem classified_pairwise {kept : List PeerInfo}
    (hsorted : kept.Pairwise fun p q => p.rtt ≤ q.rtt) (value : Bool) (flags : List Bool) :
    ((flagged value kept flags).map (classify value)).Pairwise fun p q => p.rtt ≤ q.rtt := by
  rw [List.pairwise_map]
  exact hsorted.sublist (flagged_sublist value kept flags)

theorem allPeers_info (o : Overlay) (eager lazy : List PeerInfo) :
    (allPeers { o with
      eagerPeers := eager.map (classify true)
      lazyPeers := lazy.map (classify false) }).map OverlayPeer.info = eager ++ lazy := by
  simp [allPeers, Function.comp_def]

/--
After `Reclassify` the two lists are, with node, address and time as given, a
part of the other peers, flagged by the list they are in and sorted.  They hold
as many as the two maxima allow together, and no more eager ones than theirs.
-/
theorem reclassify_partition (cfg : OverlayConfig) (o : Overlay)
    (hcfg : o.cfg = cfg.withDefaults)
    (hsum : o.cfg.maxEagerPeers + o.cfg.maxLazyPeers < 2 ^ 63)
    (sorter : SortSlice) (peers : List PeerInfo) :
    ∃ o', o.reclassify sorter peers = some o' ∧ o'.cfg = o.cfg ∧ o'.self = o.self ∧
      (o'.allPeers.map OverlayPeer.info).Subperm (o.others peers) ∧
      (∀ p ∈ o'.eagerPeers, p.isEager = true) ∧ (∀ p ∈ o'.lazyPeers, p.isEager = false) ∧
      (o'.allPeers.length : Int) = min ((o.others peers).length : Int)
        (o.cfg.maxEagerPeers + o.cfg.maxLazyPeers) ∧
      (o'.eagerPeers.length : Int) ≤ o.cfg.maxEagerPeers ∧
      o'.eagerPeers.Pairwise (fun p q => p.rtt ≤ q.rtt) ∧
      o'.lazyPeers.Pairwise (fun p q => p.rtt ≤ q.rtt) := by
  have hpos : o.cfg.Positive := hcfg ▸ cfg.withDefaults_positive
  have hmaxEager := hpos.maxEager
  have hmaxLazy := hpos.maxLazy
  have htotal := goInt_of_lt (by omega) hsum
  obtain ⟨kept, hkept, hsub, hlen⟩ := capPeers_eq o.cfg
    (sorter.sort (o.others peers)) (by omega)
  rw [htotal, sort_length] at hlen
  obtain ⟨flags, hflags, hflagsLen, hreclassify⟩ := reclassify_eq hpos sorter hkept
  have hsorted := (sorter.sorted (o.others peers)).sublist hsub
  have hcapped := reclassify_capped (le_of_lt hmaxEager) hreclassify
  have hperm := flagged_perm hflagsLen
  refine ⟨_, hreclassify, rfl, rfl, ?_, ?_, ?_, ?_, hcapped,
    classified_pairwise hsorted true flags, classified_pairwise hsorted false flags⟩
  · rw [allPeers_info]
    exact hperm.subperm.trans (hsub.subperm.trans (sorter.perm _).subperm)
  · intro p hp
    obtain ⟨q, -, rfl⟩ := List.mem_map.mp hp
    rfl
  · intro p hp
    obtain ⟨q, -, rfl⟩ := List.mem_map.mp hp
    rfl
  · have hboth := hperm.length_eq
    simp only [allPeers, List.length_append, List.length_map] at hboth ⊢
    omega

theorem reclassify_partition_two :
    (new "a" ⟨0, 0, 0, 0⟩).cfg = OverlayConfig.withDefaults ⟨0, 0, 0, 0⟩ ∧
    (8 : Int) + 6 < 2 ^ 63 ∧
    ∃ o', (new "a" ⟨0, 0, 0, 0⟩).reclassify .insertion
        [⟨"b", "b:1", 9⟩, ⟨"a", "a:1", 0⟩, ⟨"c", "c:1", 4⟩] = some o' ∧
      (o'.allPeers.length : Int) = min ((2 : Nat) : Int) (8 + 6) := by
  refine ⟨rfl, by decide, ?_⟩
  obtain ⟨o', ho', -, -, -, -, -, hlen, -⟩ :=
    reclassify_partition ⟨0, 0, 0, 0⟩ (new "a" ⟨0, 0, 0, 0⟩) rfl (by decide) .insertion
      [⟨"b", "b:1", 9⟩, ⟨"a", "a:1", 0⟩, ⟨"c", "c:1", 4⟩]
  exact ⟨o', ho', hlen⟩

end Overlay

namespace Overlay

theorem reclassify_origin {o o' : Overlay} {sorter : SortSlice} {peers : List PeerInfo}
    (h : o.reclassify sorter peers = some o') {q : OverlayPeer} (hq : q ∈ o'.allPeers) :
    q.info ∈ peers := by
  rcases reclassify_eq_some h with rfl | ⟨kept, isEager, hkept, -, rfl⟩
  · simp [allPeers] at hq
  · have hmem : q.info ∈ kept := by
      rcases List.mem_append.mp hq with hq | hq <;>
      · obtain ⟨p, hp, rfl⟩ := List.mem_map.mp hq
        rw [info_classify]
        exact (flagged_sublist _ _ _).subset hp
    have hsorted := (sorter.perm _).subset ((capPeers_sublist hkept).subset hmem)
    exact List.mem_of_mem_filter hsorted

end Overlay

/-! ## Overflow -/

/-- All peers within the threshold of their neighbours. -/
def OneCluster (peers : List PeerInfo) : Prop :=
  peers.IsChain fun p q => q.rtt - p.rtt ≤ rttGapThreshold

theorem oneCluster_iff (peers : List PeerInfo) :
    OneCluster peers ↔ (rttClusters peers).length ≤ 1 := by
  have hnear : OneCluster peers ↔ peers.IsChain fun p q => near p q := by
    simp [OneCluster, near]
  rw [hnear]
  constructor
  · intro hchain
    rw [rttClusters]
    by_cases hnil : peers = []
    · simp [hnil]
    · simp [List.splitBy_of_isChain hnil hchain]
  · intro hlen
    have hflat := List.flatten_splitBy near peers
    rw [rttClusters] at hlen
    rcases hruns : peers.splitBy near with _ | ⟨run, _ | ⟨next, runs⟩⟩
    · rw [List.splitBy_eq_nil.mp hruns]
      exact List.isChain_nil
    · have hchain := List.isChain_of_mem_splitBy (r := near) (l := peers) (m := run)
        (by simp [hruns])
      rw [hruns, List.flatten_singleton] at hflat
      rwa [hflat] at hchain
    · rw [hruns] at hlen
      simp at hlen

instance oneClusterDecidable (peers : List PeerInfo) : Decidable (OneCluster peers) :=
  decidable_of_iff _ (oneCluster_iff peers).symm

structure OverlayConfig.InRange (cfg : OverlayConfig) : Prop where
  minEager : cfg.minEagerPeers < 2 ^ 63
  maxEager : cfg.maxEagerPeers < 2 ^ 63
  minLazy : cfg.minLazyPeers < 2 ^ 63
  maxLazy : cfg.maxLazyPeers < 2 ^ 63

private theorem orDefault_lt {value default bound : Int} (h : value < bound)
    (hdefault : default < bound) : orDefault value default < bound := by
  unfold orDefault
  split <;> assumption

theorem OverlayConfig.InRange.withDefaults {cfg : OverlayConfig} (h : cfg.InRange) :
    cfg.withDefaults.InRange where
  minEager := orDefault_lt h.minEager (by decide)
  maxEager := orDefault_lt h.maxEager (by decide)
  minLazy := orDefault_lt h.minLazy (by decide)
  maxLazy := orDefault_lt h.maxLazy (by decide)

namespace Overlay

private theorem capPeers_overflow {cfg : OverlayConfig} {peers : List PeerInfo}
    (hneg : goInt (cfg.maxEagerPeers + cfg.maxLazyPeers) < 0) :
    capPeers cfg peers =
      if (rttClusters peers).length ≤ 1 then none else some [] := by
  unfold capPeers
  dsimp only
  rw [if_pos (by omega), selectDiversePeers, findRTTClusters_length]
  split
  · rw [if_neg (by omega)]
  · have hnone : flagged true peers (List.replicate peers.length false) = [] := by
      apply List.length_eq_zero_iff.mp
      rw [flagged_length (by simp)]
      simp [List.count_replicate]
    rw [sampleClusters_of_neg peers hneg, Option.bind_eq_bind, Option.bind_some, hnone]

theorem reclassify_overflow {o : Overlay} (hcfg : o.cfg.Positive) (hrange : o.cfg.InRange)
    (hsum : 2 ^ 63 ≤ o.cfg.maxEagerPeers + o.cfg.maxLazyPeers) (sorter : SortSlice)
    (peers : List PeerInfo) :
    o.reclassify sorter peers =
      if o.others peers ≠ [] ∧ OneCluster (sorter.sort (o.others peers)) then none
      else some { o with eagerPeers := [], lazyPeers := [] } := by
  have hneg : goInt (o.cfg.maxEagerPeers + o.cfg.maxLazyPeers) < 0 := by
    have := hrange.maxEager
    have := hrange.maxLazy
    exact goInt_of_overflow hsum (by omega)
  by_cases hnone : o.others peers = []
  · rw [if_neg (by simp [hnone]), reclassify_alone sorter hnone]
  · rw [reclassify_others sorter hnone, capPeers_overflow hneg]
    by_cases hone : OneCluster (sorter.sort (o.others peers))
    · rw [if_pos ((oneCluster_iff _).mp hone), if_pos ⟨hnone, hone⟩]
      rfl
    · rw [if_neg (fun h => hone ((oneCluster_iff _).mpr h)), if_neg (fun h => hone h.2)]
      obtain ⟨flags, hflags, -, -⟩ := selectEager_eq hcfg []
      rw [Option.bind_some, hflags, Option.bind_some]
      rfl

end Overlay

end GossipMesh
