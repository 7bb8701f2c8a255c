import GossipMesh.Overlay.Partition

/-!
# Every cluster keeps an eager peer

With a budget of at least one slot per cluster, sampling keeps a non-empty
initial part of every cluster.  Between sorted, non-negative round-trip times
such parts are clusters again, so the clusters survive the cap and each of
them passes its first peer on to the eager list.
-/

namespace GossipMesh

open GossipMesh.Foundation

/-- Non-empty initial parts, one of each run. -/
def InitialParts {α : Type} (parts runs : List (List α)) : Prop :=
  List.Forall₂ (fun part run => part ≠ [] ∧ part <+: run) parts runs

theorem InitialParts.refl {α : Type} {runs : List (List α)} (h : [] ∉ runs) :
    InitialParts runs runs := by
  rw [InitialParts, List.forall₂_same]
  intro run hrun
  exact ⟨fun hnil => h (hnil ▸ hrun), List.prefix_rfl⟩

theorem InitialParts.exists_part {α : Type} {parts runs : List (List α)}
    (h : InitialParts parts runs) {run : List α} (hrun : run ∈ runs) :
    ∃ part ∈ parts, part ≠ [] ∧ part <+: run := by
  induction h with
  | nil => simp at hrun
  | @cons part run' parts runs hpart _ ih =>
      rcases List.mem_cons.mp hrun with rfl | hrun
      · exact ⟨part, by simp, hpart⟩
      · obtain ⟨part', hmem, hpart'⟩ := ih hrun
        exact ⟨part', by simp [hmem], hpart'⟩

/-! ## Flags over the runs -/

section Flagged

variable {α : Type}

theorem flagged_append {value : Bool} {xs ys : List α} {flags more : List Bool}
    (h : flags.length = xs.length) :
    flagged value (xs ++ ys) (flags ++ more) =
      flagged value xs flags ++ flagged value ys more := by
  simp [flagged, List.zip_append h.symm]

theorem flagged_take {xs : List α} {a b : Nat} (h : a + b = xs.length) :
    flagged true xs (List.replicate a true ++ List.replicate b false) = xs.take a := by
  induction xs generalizing a b with
  | nil => simp [flagged]
  | cons x xs ih =>
      rw [List.length_cons] at h
      cases a with
      | succ a =>
          have hrest := ih (a := a) (b := b) (by omega)
          rw [List.replicate_succ, List.cons_append, flagged_cons, if_pos rfl, hrest,
            List.take_succ_cons]
      | zero =>
          obtain ⟨b, rfl⟩ := Nat.exists_eq_succ_of_ne_zero (show b ≠ 0 by omega)
          have hrest := ih (a := 0) (b := b) (by omega)
          rw [List.replicate_zero, List.nil_append] at hrest ⊢
          rw [List.replicate_succ, flagged_cons, if_neg (by simp), hrest]
          rfl

theorem flagged_heads {runs : List (List α)} (hne : [] ∉ runs) (m : Nat) :
    ∃ parts, InitialParts parts runs ∧
      flagged true runs.flatten (List.replicate m true ++
        ((runs.map List.length).flatMap fun len =>
          true :: List.replicate (len - 1) false).drop m) = parts.flatten := by
  induction runs generalizing m with
  | nil => exact ⟨[], .nil, by simp [flagged]⟩
  | cons run runs ih =>
      rw [List.mem_cons, not_or] at hne
      have hrun : 0 < run.length := List.length_pos_iff.mpr (Ne.symm hne.1)
      have hheads : (true :: List.replicate (run.length - 1) false).length = run.length := by
        simp
        omega
      rw [List.map_cons, List.flatMap_cons, List.flatten_cons, List.drop_append, hheads]
      -- the first `m` elements reach beyond the run, or end inside of it
      rcases Nat.lt_or_ge m run.length with hm | hm
      · obtain ⟨parts, hparts, hflat⟩ := ih hne.2 0
        have hflags : List.replicate m true ++
            (true :: List.replicate (run.length - 1) false).drop m =
            List.replicate (max m 1) true ++ List.replicate (run.length - max m 1) false := by
          cases m with
          | zero => rfl
          | succ m =>
              rw [List.drop_succ_cons, List.drop_replicate, Nat.max_eq_left (by omega)]
              congr 2
              omega
        refine ⟨run.take (max m 1) :: parts, .cons ⟨?_, List.take_prefix _ _⟩ hparts, ?_⟩
        · exact List.ne_nil_of_length_pos (by rw [List.length_take]; omega)
        · rw [Nat.sub_eq_zero_of_le (le_of_lt hm), ← List.append_assoc, hflags,
            flagged_append (by simp; omega), flagged_take (by omega)]
          rw [List.replicate_zero, List.nil_append] at hflat
          rw [hflat, List.flatten_cons]
      · obtain ⟨parts, hparts, hflat⟩ := ih hne.2 (m - run.length)
        refine ⟨run :: parts, .cons ⟨Ne.symm hne.1, List.prefix_rfl⟩ hparts, ?_⟩
        have hflags : List.replicate m true =
            List.replicate run.length true ++ List.replicate (m - run.length) true := by
          rw [List.replicate_append_replicate, Nat.add_sub_of_le hm]
        have hall := flagged_take (a := run.length) (b := 0) rfl
        rw [List.replicate_zero, List.append_nil, List.take_length] at hall
        rw [List.drop_eq_nil_of_le (by rw [hheads]; exact hm), List.nil_append, hflags,
          List.append_assoc, flagged_append (by simp), hall, hflat, List.flatten_cons]

end Flagged

/-! ## Sampling with a slot for every cluster -/

theorem nil_notMem_rttClusters (peers : List PeerInfo) : [] ∉ rttClusters peers :=
  List.nil_notMem_splitBy near peers

theorem flatten_rttClusters (peers : List PeerInfo) : (rttClusters peers).flatten = peers :=
  List.flatten_splitBy near peers

theorem sampleClusters_parts {peers : List PeerInfo} {budget : Int}
    (hbudget : ((rttClusters peers).length : Int) ≤ budget) :
    ∃ flags parts, sampleClusters (findRTTClusters peers) budget peers.length = some flags ∧
      InitialParts parts (rttClusters peers) ∧ flagged true peers flags = parts.flatten := by
  obtain ⟨m, flags, hsample, -, hflags, -⟩ := sampleClusters_eq peers
    (show 0 ≤ budget by omega)
  have hreserved : (min budget ((rttClusters peers).length : Int)).toNat =
      (clusterLengths peers).length := by
    rw [clusterLengths_length]
    omega
  have hheads := indicator_starts (clusterLengths_pos peers) 0
  rw [clusterLengths_sum] at hheads
  rw [hreserved, sampled_all, hheads] at hflags
  obtain ⟨parts, hparts, hflat⟩ := flagged_heads (nil_notMem_rttClusters peers) m
  rw [flatten_rttClusters, ← clusterLengths, ← hflags] at hflat
  exact ⟨flags, parts, hsample, hparts, hflat⟩

theorem InitialParts.single {peers : List PeerInfo} (hone : (rttClusters peers).length = 1)
    {part : List PeerInfo} (hne : part ≠ []) (hpart : part <+: peers) :
    InitialParts [part] (rttClusters peers) := by
  obtain ⟨run, hrun⟩ := List.length_eq_one_iff.mp hone
  have hflat := flatten_rttClusters peers
  rw [hrun, List.flatten_singleton] at hflat
  rw [hrun, hflat]
  exact .cons ⟨hne, hpart⟩ .nil

theorem capPeers_parts (cfg : OverlayConfig) {peers : List PeerInfo}
    (hsome : 1 ≤ (rttClusters peers).length)
    (hmax : ((rttClusters peers).length : Int) ≤
      goInt (cfg.maxEagerPeers + cfg.maxLazyPeers)) :
    ∃ parts, InitialParts parts (rttClusters peers) ∧
      capPeers cfg peers = some parts.flatten := by
  unfold capPeers
  dsimp only
  split
  · next hmany =>
      unfold selectDiversePeers
      dsimp only
      rw [findRTTClusters_length]
      split
      · refine ⟨[peers.take (goInt (cfg.maxEagerPeers + cfg.maxLazyPeers)).toNat],
          .single (by omega) ?_ (List.take_prefix _ _), ?_⟩
        · exact List.ne_nil_of_length_pos (by rw [List.length_take]; omega)
        · rw [if_pos ⟨by omega, by omega⟩, List.flatten_singleton]
      · obtain ⟨flags, parts, hsample, hparts, hflat⟩ := sampleClusters_parts hmax
        exact ⟨parts, hparts, by simp [hsample, hflat]⟩
  · exact ⟨rttClusters peers, .refl (nil_notMem_rttClusters peers), by
      rw [flatten_rttClusters]⟩

private theorem clampGap_pos {cfg : OverlayConfig} (hcfg : cfg.Positive) {n : Int}
    (hn : 1 + cfg.minLazyPeers ≤ n) (gapIdx : Int) : 1 ≤ clampGap cfg n gapIdx := by
  have hminEager := hcfg.minEager
  have hmaxEager := hcfg.maxEager
  have hminLazy := hcfg.minLazy
  unfold clampGap
  dsimp only
  grind

theorem selectEager_parts {cfg : OverlayConfig} (hcfg : cfg.Positive) (peers : List PeerInfo)
    (hsome : 1 ≤ (rttClusters peers).length)
    (hmax : ((rttClusters peers).length : Int) ≤ cfg.maxEagerPeers)
    (hlazy : ((rttClusters peers).length : Int) + cfg.minLazyPeers ≤ peers.length) :
    ∃ flags parts, selectEager cfg peers = some flags ∧
      InitialParts parts (rttClusters peers) ∧ flagged true peers flags = parts.flatten := by
  by_cases hone : (rttClusters peers).length ≤ 1
  · have hbounds := clampGap_bounds hcfg (Int.natCast_nonneg peers.length) (gapIndex cfg peers)
    have hpos := clampGap_pos hcfg (n := peers.length) (by omega) (gapIndex cfg peers)
    refine ⟨_, [peers.take (clampGap cfg peers.length (gapIndex cfg peers)).toNat],
      selectEager_single hcfg hone, .single (by omega) ?_ (List.take_prefix _ _), ?_⟩
    · exact List.ne_nil_of_length_pos (by rw [List.length_take]; omega)
    · rw [flagged_take (by omega), List.flatten_singleton]
  · have hbudget : ((rttClusters peers).length : Int) ≤ eagerBudget cfg peers.length := by
      unfold eagerBudget
      omega
    obtain ⟨flags, parts, hsample, hparts, hflat⟩ := sampleClusters_parts hbudget
    exact ⟨flags, parts, by rw [selectEager_multiple hone, hsample], hparts, hflat⟩

/-! ## Clusters of sorted, non-negative times -/

theorem near_false_of_le {p p' q q' : PeerInfo} (hfar : near p q = false)
    (hpos : 0 ≤ p'.rtt) (hp : p'.rtt ≤ p.rtt) (hpq : p.rtt ≤ q.rtt) (hq : q.rtt ≤ q'.rtt) :
    near p' q' = false := by
  have hpos' : 0 ≤ p.rtt := Int64.le_trans hpos hp
  have hle : p'.rtt ≤ q'.rtt := Int64.le_trans hp (Int64.le_trans hpq hq)
  simp only [near, decide_eq_false_iff_not, Int64.le_iff_toInt_le] at hfar ⊢
  rw [Int64.toInt_sub_of_le _ _ hpos' hpq] at hfar
  rw [Int64.toInt_sub_of_le _ _ hpos hle]
  rw [Int64.le_iff_toInt_le] at hp hq
  omega

private theorem rtt_le_getLast {peers : List PeerInfo}
    (hsorted : peers.Pairwise fun p q => p.rtt ≤ q.rtt)
    (hne : peers ≠ []) {p : PeerInfo} (hp : p ∈ peers) : p.rtt ≤ (peers.getLast hne).rtt := by
  have hsplit := List.dropLast_append_getLast hne
  rw [← hsplit, List.pairwise_append] at hsorted
  rw [← hsplit, List.mem_append, List.mem_singleton] at hp
  rcases hp with hp | rfl
  · exact hsorted.2.2 p hp _ (by simp)
  · exact Int64.le_refl _

private theorem head_rtt_le {peers : List PeerInfo} (hsorted : peers.Pairwise fun p q => p.rtt ≤ q.rtt)
    (hne : peers ≠ []) {p : PeerInfo} (hp : p ∈ peers) : (peers.head hne).rtt ≤ p.rtt := by
  obtain ⟨first, rest, rfl⟩ := List.exists_cons_of_ne_nil hne
  rcases List.mem_cons.mp hp with rfl | hp
  · exact Int64.le_refl _
  · exact (List.pairwise_cons.mp hsorted).1 p hp

theorem rttClusters_separated {peers : List PeerInfo}
    (hsorted : peers.Pairwise fun p q => p.rtt ≤ q.rtt) (hpos : ∀ p ∈ peers, 0 ≤ p.rtt) :
    (rttClusters peers).IsChain fun run next => ∀ p ∈ run, ∀ q ∈ next, near p q = false := by
  have hchain := List.isChain_getLast_head_splitBy near peers
  rw [← flatten_rttClusters peers, List.pairwise_flatten] at hsorted
  obtain ⟨hruns, hbetween⟩ := hsorted
  rw [rttClusters, List.isChain_iff_getElem] at *
  intro i hi p hp q hq
  obtain ⟨hlast, hhead, hfar⟩ := hchain i hi
  have hrun := List.getElem_mem (Nat.lt_of_succ_lt hi)
  have hnext := List.getElem_mem hi
  have hp' : p ∈ peers := by
    rw [← List.flatten_splitBy near peers]
    exact List.mem_flatten.mpr ⟨_, hrun, hp⟩
  exact near_false_of_le hfar (hpos p hp') (rtt_le_getLast (hruns _ hrun) hlast hp)
    (List.pairwise_iff_getElem.mp hbetween i (i + 1) _ hi (Nat.lt_succ_self i) _
      (List.getLast_mem hlast) _ (List.head_mem hhead))
    (head_rtt_le (hruns _ hnext) hhead hq)

theorem rttClusters_parts {peers : List PeerInfo} {parts : List (List PeerInfo)}
    (hsorted : peers.Pairwise fun p q => p.rtt ≤ q.rtt) (hpos : ∀ p ∈ peers, 0 ≤ p.rtt)
    (hparts : InitialParts parts (rttClusters peers)) :
    rttClusters parts.flatten = parts :=
  splitBy_flatten_of_initial hparts (fun _ hrun => List.isChain_of_mem_splitBy hrun)
    (rttClusters_separated hsorted hpos)

/-! ## Reclassification -/

namespace Overlay

private theorem reclassify_eager_of_lt {o : Overlay} (hpos : o.cfg.Positive)
    (hsum : o.cfg.maxEagerPeers + o.cfg.maxLazyPeers < 2 ^ 63) (sorter : SortSlice)
    {peers : List PeerInfo} (hrtt : ∀ p ∈ o.others peers, 0 ≤ p.rtt)
    (hsome : 1 ≤ (rttClusters (sorter.sort (o.others peers))).length)
    (hmax : ((rttClusters (sorter.sort (o.others peers))).length : Int) ≤ o.cfg.maxEagerPeers)
    (htotal : ((rttClusters (sorter.sort (o.others peers))).length : Int) +
        o.cfg.minLazyPeers ≤
      min ((o.others peers).length : Int) (o.cfg.maxEagerPeers + o.cfg.maxLazyPeers)) :
    ∃ o', o.reclassify sorter peers = some o' ∧
      ∀ cluster ∈ rttClusters (sorter.sort (o.others peers)),
        ∃ p ∈ cluster, classify true p ∈ o'.eagerPeers := by
  have hminLazy := hpos.minLazy
  have hmaxLazy := hpos.maxLazy
  have hgo := goInt_of_lt (by omega) hsum
  have hsorted := sorter.sorted (o.others peers)
  have hrtt' : ∀ p ∈ sorter.sort (o.others peers), 0 ≤ p.rtt :=
    fun p hp => hrtt p ((sorter.perm _).mem_iff.mp hp)
  obtain ⟨parts, hparts, hkept⟩ := capPeers_parts o.cfg hsome (by rw [hgo]; omega)
  have hruns := rttClusters_parts hsorted hrtt' hparts
  have hcount : parts.length = (rttClusters (sorter.sort (o.others peers))).length :=
    List.Forall₂.length_eq hparts
  obtain ⟨kept, hkept', -, hlen⟩ := capPeers_eq o.cfg (sorter.sort (o.others peers)) (by omega)
  rw [hkept] at hkept'
  cases hkept'
  rw [sort_length, hgo] at hlen
  obtain ⟨flags, chosen, hflags, hchosen, heager⟩ := selectEager_parts hpos
    parts.flatten (by rw [hruns]; omega) (by rw [hruns]; omega)
    (by rw [hruns]; omega)
  obtain ⟨flags', hflags', -, hreclassify⟩ := reclassify_eq hpos sorter hkept
  rw [hflags] at hflags'
  cases hflags'
  refine ⟨_, hreclassify, ?_⟩
  intro cluster hcluster
  obtain ⟨part, hpart, -, hpartInit⟩ := hparts.exists_part hcluster
  rw [hruns] at hchosen
  obtain ⟨run, hrun, hrunNe, hrunInit⟩ := hchosen.exists_part hpart
  obtain ⟨p, rest, rfl⟩ := List.exists_cons_of_ne_nil hrunNe
  refine ⟨p, (hrunInit.trans hpartInit).subset (by simp), ?_⟩
  apply List.mem_map_of_mem
  rw [heager]
  exact List.mem_flatten.mpr ⟨_, hrun, by simp⟩

/--
If the eager maximum leaves a slot for every cluster, and the peers and the sum
of the two maxima one for every cluster besides the lazy minimum, every cluster
of the sorted peers has an eager peer, however many the cap drops, exactly if
that sum does not wrap.
-/
theorem reclassify_cluster_eager_iff (cfg : OverlayConfig) (hrange : cfg.InRange) (o : Overlay)
    (hcfg : o.cfg = cfg.withDefaults) (sorter : SortSlice) (peers : List PeerInfo)
    (hrtt : ∀ p ∈ o.others peers, 0 ≤ p.rtt)
    (hsome : 1 ≤ (rttClusters (sorter.sort (o.others peers))).length)
    (hmax : ((rttClusters (sorter.sort (o.others peers))).length : Int) ≤ o.cfg.maxEagerPeers)
    (htotal : ((rttClusters (sorter.sort (o.others peers))).length : Int) +
        o.cfg.minLazyPeers ≤
      min ((o.others peers).length : Int) (o.cfg.maxEagerPeers + o.cfg.maxLazyPeers)) :
    (∃ o', o.reclassify sorter peers = some o' ∧
      ∀ cluster ∈ rttClusters (sorter.sort (o.others peers)),
        ∃ p ∈ cluster, classify true p ∈ o'.eagerPeers) ↔
    o.cfg.maxEagerPeers + o.cfg.maxLazyPeers < 2 ^ 63 := by
  have hpos : o.cfg.Positive := hcfg ▸ cfg.withDefaults_positive
  constructor
  · rintro ⟨o', ho', hclusters⟩
    by_contra hsum
    -- a wrapped total leaves no eager peer, and there is a cluster that needs one
    obtain ⟨cluster, hcluster⟩ := List.exists_mem_of_length_pos hsome
    obtain ⟨p, -, heager⟩ := hclusters cluster hcluster
    rw [reclassify_overflow hpos (hcfg ▸ hrange.withDefaults) (not_lt.mp hsum)] at ho'
    split at ho'
    · cases ho'
    · cases ho'
      simp at heager
  · intro hsum
    exact reclassify_eager_of_lt hpos hsum sorter hrtt hsome hmax htotal

def twoRegions : List PeerInfo :=
  [⟨"b", "b:1", 1000000⟩, ⟨"c", "c:1", 2000000⟩, ⟨"d", "d:1", 100000000⟩,
    ⟨"e", "e:1", 101000000⟩]

theorem reclassify_cluster_eager_twoRegions :
    (OverlayConfig.InRange ⟨0, 0, 0, 0⟩ ∧
      (new "a" ⟨0, 0, 0, 0⟩).cfg = OverlayConfig.withDefaults ⟨0, 0, 0, 0⟩ ∧
      (∀ p ∈ (new "a" ⟨0, 0, 0, 0⟩).others twoRegions, 0 ≤ p.rtt) ∧
      (rttClusters (SortSlice.insertion.sort twoRegions)).length = 2 ∧ (2 : Int) ≤ 8 ∧
      (2 : Int) + 2 ≤ min 4 (8 + 6)) ∧
    ∃ o', (new "a" ⟨0, 0, 0, 0⟩).reclassify .insertion twoRegions = some o' ∧
      ∀ cluster ∈ rttClusters (SortSlice.insertion.sort twoRegions),
        ∃ p ∈ cluster, classify true p ∈ o'.eagerPeers :=
  ⟨⟨⟨by decide, by decide, by decide, by decide⟩, rfl, by decide, by decide, by decide,
      by decide⟩,
    (reclassify_cluster_eager_iff ⟨0, 0, 0, 0⟩ ⟨by decide, by decide, by decide, by decide⟩
      (new "a" ⟨0, 0, 0, 0⟩) rfl .insertion twoRegions (by decide) (by decide) (by decide)
      (by decide)).mpr (by decide)⟩

/-- With the eager maximum at the largest `int`, the two regions keep no peer at all. -/
theorem twoRegions_dropped :
    let o := new "a" ⟨0, 2 ^ 63 - 1, 0, 0⟩
    let k := (rttClusters (SortSlice.insertion.sort (o.others twoRegions))).length
    o.cfg.maxEagerPeers < 2 ^ 63 ∧ (∀ p ∈ o.others twoRegions, 0 ≤ p.rtt) ∧ k = 2 ∧
    (k : Int) ≤ o.cfg.maxEagerPeers ∧
    (k : Int) + o.cfg.minLazyPeers ≤
      min ((o.others twoRegions).length : Int) (o.cfg.maxEagerPeers + o.cfg.maxLazyPeers) ∧
    (o.reclassify .insertion twoRegions).map Overlay.allPeers = some [] := by
  refine ⟨by decide, by decide, by decide, by decide, by decide, by decide⟩

end Overlay

end GossipMesh
