import GossipMesh.Overlay.Sampling

/-!
# How many peers of each kind

The budget of eager peers comes from two branches with different arithmetic.
A list of one cluster is split at its largest gap; the lists of several
clusters leave `MinLazyPeers` peers lazy whatever that costs.  Both bounds the
configuration names hold exactly outside of one kind of list each.
-/

namespace GossipMesh

open GossipMesh.Foundation

theorem OneCluster.gapAt_le {peers : List PeerInfo} (h : OneCluster peers) (i : Nat)
    (hi : 0 < i) : gapAt peers i ≤ rttGapThreshold := by
  obtain ⟨i, rfl⟩ := Nat.exists_eq_succ_of_ne_zero (by omega : i ≠ 0)
  unfold gapAt
  by_cases hlen : i + 1 < peers.length
  · have hpair := (List.isChain_iff_getElem.mp h) i hlen
    simpa [List.getElem?_eq_getElem hlen, List.getElem?_eq_getElem (Nat.lt_of_succ_lt hlen)]
      using hpair
  · simp [List.getElem?_eq_none (not_lt.mp hlen)]
    decide

theorem gapAt_succ {peers : List PeerInfo} {i : Nat} {p q : PeerInfo}
    (hp : peers[i]? = some p) (hq : peers[i + 1]? = some q) :
    gapAt peers (i + 1) = q.rtt - p.rtt := by
  simp [gapAt, hp, hq]

theorem largestGap_spec (peers : List PeerInfo) (lo count : Nat) (best : Int64 × Int) :
    (∀ j, lo ≤ j → j < lo + count → gapAt peers j ≤ (largestGap peers lo count best).1) ∧
    (largestGap peers lo count best = best ∨
      ∃ i, lo ≤ i ∧ i < lo + count ∧
        largestGap peers lo count best = (gapAt peers i, (i : Int)) ∧
        ∀ j, lo ≤ j → j < i → gapAt peers j < gapAt peers i) := by
  induction count with
  | zero =>
      refine ⟨?_, .inl rfl⟩
      intro j hlo hhi
      omega
  | succ count ih =>
      obtain ⟨hbound, hbest⟩ := ih
      have hstep : largestGap peers lo (count + 1) best =
          if (largestGap peers lo count best).1 < gapAt peers (lo + count) then
            (gapAt peers (lo + count), ((lo + count : Nat) : Int))
          else largestGap peers lo count best := by
        rw [largestGap, List.range'_concat, List.foldl_append, Nat.one_mul]
        rfl
      rw [hstep]
      split
      · next hlarger =>
          have hearlier : ∀ j, lo ≤ j → j < lo + count →
              gapAt peers j < gapAt peers (lo + count) := by
            intro j hlo hhi
            have := hbound j hlo hhi
            rw [Int64.le_iff_toInt_le] at this
            rw [Int64.lt_iff_toInt_lt] at hlarger ⊢
            omega
          refine ⟨?_, .inr ⟨lo + count, by omega, by omega, rfl, hearlier⟩⟩
          intro j hlo hhi
          rcases Nat.lt_or_ge j (lo + count) with hj | hj
          · exact Int64.le_of_lt (hearlier j hlo hj)
          · rw [show j = lo + count by omega]
            exact Int64.le_refl _
      · next hnot =>
          refine ⟨?_, ?_⟩
          · intro j hlo hhi
            rcases Nat.lt_or_ge j (lo + count) with hj | hj
            · exact hbound j hlo hj
            · rw [show j = lo + count by omega]
              exact Int64.not_lt.mp hnot
          · rcases hbest with hsame | ⟨i, hlo, hhi, heq, hfirst⟩
            · exact .inl hsame
            · exact .inr ⟨i, hlo, by omega, heq, hfirst⟩

/-! ## The cap and the clusters -/

theorem rttClusters_far {peers : List PeerInfo}
    (hsorted : peers.Pairwise fun p q => p.rtt ≤ q.rtt) (hpos : ∀ p ∈ peers, 0 ≤ p.rtt)
    {c d : Nat} (hcd : c < d) {run next : List PeerInfo}
    (hrun : (rttClusters peers)[c]? = some run) (hnext : (rttClusters peers)[d]? = some next)
    {p q : PeerInfo} (hp : p ∈ run) (hq : q ∈ next) : near p q = false := by
  obtain ⟨hd, rfl⟩ := List.getElem?_eq_some_iff.mp hnext
  obtain ⟨hc, rfl⟩ := List.getElem?_eq_some_iff.mp hrun
  have hsucc : c + 1 < (rttClusters peers).length := by omega
  have hadjacent := List.isChain_iff_getElem.mp (rttClusters_separated hsorted hpos) c hsucc p hp
  have hmem : ∀ {i : Nat} (hi : i < (rttClusters peers).length) {x : PeerInfo},
      x ∈ (rttClusters peers)[i] → x ∈ peers := by
    intro i hi x hx
    rw [← flatten_rttClusters peers]
    exact List.mem_flatten.mpr ⟨_, List.getElem_mem hi, hx⟩
  rcases Nat.eq_or_lt_of_le hcd with hd' | hd'
  · subst hd'
    exact hadjacent q hq
  · -- a peer of the next cluster stands between the two
    obtain ⟨r, hr⟩ := List.exists_mem_of_ne_nil (rttClusters peers)[c + 1] fun hnil =>
      nil_notMem_rttClusters peers (hnil ▸ List.getElem_mem hsucc)
    have hbetween := hsorted
    rw [← flatten_rttClusters peers, List.pairwise_flatten] at hbetween
    have hle := List.pairwise_iff_getElem.mp hbetween.2
    exact near_false_of_le (hadjacent r hr) (hpos p (hmem hc hp)) (Int64.le_refl _)
      (hle c (c + 1) hc hsucc (by omega) p hp r hr) (hle (c + 1) d hsucc hd hd' r hr q hq)

private theorem EvenSample.not_oneCluster {peers chosen : List PeerInfo} {r : Nat}
    (hsorted : peers.Pairwise fun p q => p.rtt ≤ q.rtt) (hpos : ∀ p ∈ peers, 0 ≤ p.rtt)
    (hr : 2 ≤ r) (h : EvenSample peers r chosen) : ¬ OneCluster chosen := by
  obtain ⟨picks, hasc, hcount, hheads, -, -⟩ := h
  rcases hheads with _ | @⟨c, p, _, _, ⟨run, hrun, hp⟩, hrest⟩
  · simp at hcount
    omega
  rcases hrest with _ | @⟨d, q, _, _, ⟨next, hnext, hq⟩, -⟩
  · simp at hcount
    omega
  have hcd : c < d := (List.pairwise_cons.mp hasc).1 d (by simp)
  have hfar := rttClusters_far hsorted hpos hcd hrun hnext (List.mem_of_mem_head? hp)
    (List.mem_of_mem_head? hq)
  intro hone
  have hnear := (List.isChain_cons_cons.mp hone).1
  simp [near, hnear] at hfar

theorem capPeers_oneCluster {cfg : OverlayConfig} {peers kept : List PeerInfo}
    (hsorted : peers.Pairwise fun p q => p.rtt ≤ q.rtt) (hpos : ∀ p ∈ peers, 0 ≤ p.rtt)
    (htotal : 2 ≤ goInt (cfg.maxEagerPeers + cfg.maxLazyPeers))
    (hkept : capPeers cfg peers = some kept) : OneCluster kept ↔ OneCluster peers := by
  by_cases hone : OneCluster peers
  · have hlen := (oneCluster_iff peers).mp hone
    simp only [hone, iff_true]
    unfold capPeers selectDiversePeers at hkept
    dsimp only at hkept
    rw [findRTTClusters_length, if_pos hlen] at hkept
    split at hkept
    · rw [if_pos ⟨by omega, by omega⟩] at hkept
      cases hkept
      exact List.IsChain.take hone _
    · cases hkept
      exact hone
  · have hlen : 2 ≤ (rttClusters peers).length := by
      rw [oneCluster_iff] at hone
      omega
    simp only [hone, iff_false]
    rcases le_or_gt ((rttClusters peers).length : Int)
        (goInt (cfg.maxEagerPeers + cfg.maxLazyPeers)) with hfew | hmany
    · obtain ⟨parts, hparts, hflat⟩ := capPeers_parts cfg (by omega) hfew
      rw [hkept] at hflat
      cases hflat
      have hcount : parts.length = (rttClusters peers).length := List.Forall₂.length_eq hparts
      rw [oneCluster_iff, rttClusters_parts hsorted hpos hparts]
      omega
    · unfold capPeers at hkept
      dsimp only at hkept
      split at hkept
      · obtain ⟨r, hr⟩ := Int.eq_ofNat_of_zero_le
          (show 0 ≤ goInt (cfg.maxEagerPeers + cfg.maxLazyPeers) by omega)
        rw [hr] at hkept
        obtain ⟨chosen, hchosen, hsample⟩ :=
          @selectDiversePeers_even peers r (by omega) (by omega) hlen
        rw [hkept] at hchosen
        cases hchosen
        exact hsample.not_oneCluster hsorted hpos (by omega)
      · cases hkept
        exact hone

/-! ## The number of eager peers -/

namespace Overlay

theorem reclassify_counts {o : Overlay} (hcfg : o.cfg.Positive)
    (hsum : o.cfg.maxEagerPeers + o.cfg.maxLazyPeers < 2 ^ 63) (sorter : SortSlice)
    (peers : List PeerInfo) :
    ∃ kept o', capPeers o.cfg (sorter.sort (o.others peers)) = some kept ∧
      o.reclassify sorter peers = some o' ∧
      (kept.length : Int) = min ((o.others peers).length : Int)
        (o.cfg.maxEagerPeers + o.cfg.maxLazyPeers) ∧
      (o'.eagerPeers.length : Int) = (if OneCluster kept then
        clampGap o.cfg kept.length (gapIndex o.cfg kept) else eagerBudget o.cfg kept.length) ∧
      o'.eagerPeers.length + o'.lazyPeers.length = kept.length := by
  have hmaxEager := hcfg.maxEager
  have hmaxLazy := hcfg.maxLazy
  have htotal := goInt_of_lt (by omega) hsum
  obtain ⟨kept, hkept, -, hlen⟩ := capPeers_eq o.cfg (sorter.sort (o.others peers)) (by omega)
  rw [htotal, sort_length] at hlen
  obtain ⟨flags, hflags, hflagsLen, hreclassify⟩ := reclassify_eq hcfg sorter hkept
  obtain ⟨flags', hflags', -, hcount⟩ := selectEager_eq hcfg kept
  rw [hflags] at hflags'
  cases hflags'
  have hboth := List.count_true_add_count_false flags
  refine ⟨kept, _, hkept, hreclassify, hlen, ?_, ?_⟩
  · simp only [List.length_map, flagged_length hflagsLen, hcount, oneCluster_iff]
  · simp only [List.length_map, flagged_length hflagsLen]
    omega

/-! ## The lower bound on eager peers -/

theorem clampGap_small {cfg : OverlayConfig} (hcfg : cfg.Positive)
    (hmin : cfg.minEagerPeers ≤ cfg.maxEagerPeers) {peers : List PeerInfo}
    (hsum : cfg.minEagerPeers + cfg.minLazyPeers < 2 ^ 63)
    (hsmall : (peers.length : Int) ≤ cfg.minEagerPeers + cfg.minLazyPeers) :
    clampGap cfg peers.length (gapIndex cfg peers) =
      min cfg.minEagerPeers (peers.length : Int) := by
  have hminEager := hcfg.minEager
  have hminLazy := hcfg.minLazy
  have hgo := goInt_of_lt (by omega) hsum
  have hgap : gapIndex cfg peers = min cfg.minEagerPeers (peers.length : Int) := by
    unfold gapIndex
    dsimp only
    rw [hgo, if_pos hsmall]
  rw [hgap]
  unfold clampGap
  dsimp only
  rw [hgo]
  omega

theorem clampGap_small_overflow {cfg : OverlayConfig} (hcfg : cfg.Positive)
    (hrange : cfg.InRange) (hmin : cfg.minEagerPeers ≤ cfg.maxEagerPeers)
    {peers : List PeerInfo} (hsum : 2 ^ 63 ≤ cfg.minEagerPeers + cfg.minLazyPeers)
    (hsmall : (peers.length : Int) < cfg.minEagerPeers + cfg.minLazyPeers) :
    clampGap cfg peers.length (gapIndex cfg peers) =
      max 0 ((peers.length : Int) - cfg.minLazyPeers) := by
  have hminEager := hcfg.minEager
  have hminLazy := hcfg.minLazy
  have hneg : goInt (cfg.minEagerPeers + cfg.minLazyPeers) < 0 := by
    have := hrange.minEager
    have := hrange.minLazy
    exact goInt_of_overflow hsum (by omega)
  have hgap : gapIndex cfg peers = min (peers.length : Int) cfg.maxEagerPeers := by
    unfold gapIndex
    dsimp only
    rw [if_neg (by omega), Int.toNat_of_nonpos (show (peers.length : Int) - cfg.minLazyPeers -
      cfg.minEagerPeers ≤ 0 by omega)]
    exact if_pos (show (0 : Int64) < rttGapThreshold by decide)
  rw [hgap]
  unfold clampGap
  dsimp only
  omega

private theorem small_eager_iff {o : Overlay} (hpos : o.cfg.Positive) (hrange : o.cfg.InRange)
    (hmin : o.cfg.minEagerPeers ≤ o.cfg.maxEagerPeers) (sorter : SortSlice)
    {peers : List PeerInfo} (hsome : 1 ≤ (o.others peers).length)
    (hsmall : ((o.others peers).length : Int) < o.cfg.minEagerPeers + o.cfg.minLazyPeers) :
    (∃ o', o.reclassify sorter peers = some o' ∧
      min ((o.others peers).length : Int) o.cfg.minEagerPeers ≤ o'.eagerPeers.length) ↔
    o.cfg.maxEagerPeers + o.cfg.maxLazyPeers < 2 ^ 63 ∧
      o.cfg.minEagerPeers + o.cfg.minLazyPeers < 2 ^ 63 ∧
      ∀ kept, capPeers o.cfg (sorter.sort (o.others peers)) = some kept → OneCluster kept := by
  have hminEager := hpos.minEager
  have hminLazy := hpos.minLazy
  have hmaxLazy := hpos.maxLazy
  by_cases hsum : o.cfg.maxEagerPeers + o.cfg.maxLazyPeers < 2 ^ 63
  · obtain ⟨kept, o', hkept, ho', hlen, heager, -⟩ := reclassify_counts hpos hsum sorter peers
    have hkeptSmall : (kept.length : Int) < o.cfg.minEagerPeers + o.cfg.minLazyPeers := by omega
    have hgoal : (∃ o'', o.reclassify sorter peers = some o'' ∧
        min ((o.others peers).length : Int) o.cfg.minEagerPeers ≤ o''.eagerPeers.length) ↔
        min ((o.others peers).length : Int) o.cfg.minEagerPeers ≤ o'.eagerPeers.length := by
      simp [ho']
    have hkeptAll : (∀ kept', capPeers o.cfg (sorter.sort (o.others peers)) = some kept' →
        OneCluster kept') ↔ OneCluster kept := by
      simp [hkept]
    rw [hgoal, hkeptAll, heager]
    clear hgoal hkeptAll heager ho' hkept
    by_cases hone : OneCluster kept
    · rw [if_pos hone]
      by_cases hminSum : o.cfg.minEagerPeers + o.cfg.minLazyPeers < 2 ^ 63
      · rw [clampGap_small hpos hmin hminSum (le_of_lt hkeptSmall)]
        simp only [hsum, hminSum, hone, true_and, iff_true]
        omega
      · rw [clampGap_small_overflow hpos hrange hmin (by omega) hkeptSmall]
        simp only [hminSum, false_and, and_false, iff_false]
        omega
    · rw [if_neg hone]
      simp only [hone, and_false, iff_false, eagerBudget]
      omega
  · simp only [hsum, false_and, iff_false]
    rintro ⟨o', ho', hcount⟩
    rw [reclassify_overflow hpos hrange (by omega)] at ho'
    split at ho'
    · cases ho'
    · cases ho'
      simp only [List.length_nil] at hcount
      omega

/--
With fewer peers than the two minima ask for together, the least number of
eager peers is reached exactly if the retained peers are one cluster and
neither sum of the configuration wraps.  Between non-negative times the cap
does not matter: it is all the peers that have to be one cluster.
-/
theorem reclassify_small_eager_iff (cfg : OverlayConfig) (hrange : cfg.InRange) (o : Overlay)
    (hcfg : o.cfg = cfg.withDefaults)
    (hmin : o.cfg.minEagerPeers ≤ o.cfg.maxEagerPeers) (sorter : SortSlice)
    (peers : List PeerInfo) (hsome : 1 ≤ (o.others peers).length)
    (hsmall : ((o.others peers).length : Int) < o.cfg.minEagerPeers + o.cfg.minLazyPeers) :
    ((∃ o', o.reclassify sorter peers = some o' ∧
      min ((o.others peers).length : Int) o.cfg.minEagerPeers ≤ o'.eagerPeers.length) ↔
    o.cfg.maxEagerPeers + o.cfg.maxLazyPeers < 2 ^ 63 ∧
      o.cfg.minEagerPeers + o.cfg.minLazyPeers < 2 ^ 63 ∧
      ∀ kept, capPeers o.cfg (sorter.sort (o.others peers)) = some kept → OneCluster kept) ∧
    ((∀ p ∈ o.others peers, 0 ≤ p.rtt) →
      ((∃ o', o.reclassify sorter peers = some o' ∧
        min ((o.others peers).length : Int) o.cfg.minEagerPeers ≤ o'.eagerPeers.length) ↔
      o.cfg.maxEagerPeers + o.cfg.maxLazyPeers < 2 ^ 63 ∧
        o.cfg.minEagerPeers + o.cfg.minLazyPeers < 2 ^ 63 ∧
        OneCluster (sorter.sort (o.others peers)))) := by
  have hpos : o.cfg.Positive := hcfg ▸ cfg.withDefaults_positive
  have hmaxEager := hpos.maxEager
  have hmaxLazy := hpos.maxLazy
  have hretained := small_eager_iff hpos (hcfg ▸ hrange.withDefaults) hmin sorter hsome hsmall
  refine ⟨hretained, fun hrtt => hretained.trans (and_congr_right fun hsum => ?_)⟩
  have hgo := goInt_of_lt (by omega) hsum
  obtain ⟨kept, hkept, -, -⟩ := capPeers_eq o.cfg (sorter.sort (o.others peers)) (by omega)
  have hsame := capPeers_oneCluster (sorter.sorted (o.others peers))
    (fun p hp => hrtt p ((sorter.perm _).mem_iff.mp hp)) (by omega) hkept
  simp only [hkept, Option.some.injEq, forall_eq', hsame]

def fivePeers : List PeerInfo :=
  [⟨"b", "b:1", 1000000⟩, ⟨"c", "c:1", 2000000⟩, ⟨"d", "d:1", 4000000⟩, ⟨"e", "e:1", 5000000⟩,
    ⟨"f", "f:1", 7000000⟩]

theorem reclassify_small_eager_fivePeers :
    (OverlayConfig.InRange ⟨0, 0, 0, 0⟩ ∧
      (new "a" ⟨0, 0, 0, 0⟩).cfg = OverlayConfig.withDefaults ⟨0, 0, 0, 0⟩ ∧
      (4 : Int) ≤ 8 ∧ 1 ≤ 5 ∧ (5 : Int) < 4 + 2) ∧
    (∀ p ∈ (new "a" ⟨0, 0, 0, 0⟩).others fivePeers, 0 ≤ p.rtt) ∧
    ∃ o', (new "a" ⟨0, 0, 0, 0⟩).reclassify .insertion fivePeers = some o' ∧
      min ((5 : Nat) : Int) 4 ≤ o'.eagerPeers.length :=
  ⟨⟨⟨by decide, by decide, by decide, by decide⟩, rfl, by decide, by decide, by decide⟩,
    by decide,
    ((reclassify_small_eager_iff ⟨0, 0, 0, 0⟩ ⟨by decide, by decide, by decide, by decide⟩
      (new "a" ⟨0, 0, 0, 0⟩) rfl (by decide) .insertion fivePeers (by decide)
      (by decide)).2 (by decide)).mpr ⟨by decide, by decide, by decide⟩⟩

/-- Two peers in different regions and no eager one, under the default configuration. -/
theorem two_regions_not_eager :
    let o := new "a" ⟨0, 0, 0, 0⟩
    let peers : List PeerInfo := [⟨"b", "b:1", 1000000⟩, ⟨"c", "c:1", 100000000⟩]
    o.cfg.minEagerPeers ≤ o.cfg.maxEagerPeers ∧ o.others peers = peers ∧
    (2 : Int) < o.cfg.minEagerPeers + o.cfg.minLazyPeers ∧
    (o.reclassify .insertion peers).map (fun o' => o'.eagerPeers.length) = some 0 ∧
    ¬ min (2 : Int) o.cfg.minEagerPeers ≤ 0 := by
  refine ⟨by decide, by decide, by decide, by decide, by decide⟩

/-! ## The upper bound on lazy peers -/

/--
One cluster with two neighbours exactly the threshold apart, the second of
them behind the least number of eager peers and more than the largest number
of lazy ones from the end.
-/
def ThresholdSplit (cfg : OverlayConfig) (peers : List PeerInfo) : Prop :=
  OneCluster peers ∧ ∃ (i : Nat) (p q : PeerInfo), peers[i]? = some p ∧ peers[i + 1]? = some q ∧
    cfg.minEagerPeers ≤ (i : Int) + 1 ∧ (i : Int) + 1 + cfg.maxLazyPeers < peers.length ∧
    q.rtt - p.rtt = rttGapThreshold

theorem thresholdSplit_iff {cfg : OverlayConfig} (hcfg : cfg.Positive) {peers : List PeerInfo}
    (hone : OneCluster peers) :
    ThresholdSplit cfg peers ↔ ∃ j : Nat, cfg.minEagerPeers ≤ j ∧
      (j : Int) + cfg.maxLazyPeers < peers.length ∧ gapAt peers j = rttGapThreshold := by
  have hminEager := hcfg.minEager
  have hmaxLazy := hcfg.maxLazy
  constructor
  · rintro ⟨-, i, p, q, hp, hq, hlo, hhi, hgap⟩
    exact ⟨i + 1, by omega, by omega, by rw [gapAt_succ hp hq, hgap]⟩
  · rintro ⟨j, hlo, hhi, hgap⟩
    obtain ⟨i, rfl⟩ := Nat.exists_eq_succ_of_ne_zero (by omega : j ≠ 0)
    have hq : i + 1 < peers.length := by omega
    have hp : i < peers.length := by omega
    refine ⟨hone, i, _, _, List.getElem?_eq_getElem hp, List.getElem?_eq_getElem hq, by omega,
      by omega, ?_⟩
    rw [← hgap, gapAt_succ (List.getElem?_eq_getElem hp) (List.getElem?_eq_getElem hq)]

theorem clampGap_flat {cfg : OverlayConfig} (hcfg : cfg.Positive) {n : Int}
    (hmin : cfg.minEagerPeers ≤ cfg.maxEagerPeers)
    (hgo : goInt (cfg.minEagerPeers + cfg.minLazyPeers) = cfg.minEagerPeers + cfg.minLazyPeers)
    (hn : cfg.minEagerPeers + cfg.minLazyPeers < n) :
    clampGap cfg n (min n cfg.maxEagerPeers) = min cfg.maxEagerPeers (n - cfg.minLazyPeers) := by
  have hposEager := hcfg.minEager
  have hposLazy := hcfg.minLazy
  unfold clampGap
  dsimp only
  rw [hgo]
  omega

theorem clampGap_split {cfg : OverlayConfig} (hcfg : cfg.Positive) {n i : Int}
    (hmin : cfg.minEagerPeers ≤ cfg.maxEagerPeers) (hlo : cfg.minEagerPeers ≤ i)
    (hhi : i < n - cfg.minLazyPeers) : clampGap cfg n i = min cfg.maxEagerPeers i := by
  have hposEager := hcfg.minEager
  have hposLazy := hcfg.minLazy
  unfold clampGap
  dsimp only
  omega

theorem gapIndex_large {cfg : OverlayConfig} (hcfg : cfg.Positive) {peers : List PeerInfo}
    (hgo : goInt (cfg.minEagerPeers + cfg.minLazyPeers) = cfg.minEagerPeers + cfg.minLazyPeers)
    (hlarge : cfg.minEagerPeers + cfg.minLazyPeers < peers.length) :
    ∃ best : Int64 × Int,
      gapIndex cfg peers = (if best.1 < rttGapThreshold then
        min (peers.length : Int) cfg.maxEagerPeers else best.2) ∧
      (∀ j : Nat, cfg.minEagerPeers ≤ j → (j : Int) < peers.length - cfg.minLazyPeers →
        gapAt peers j ≤ best.1) ∧
      (best = (0, cfg.minEagerPeers) ∨ ∃ i : Nat, cfg.minEagerPeers ≤ i ∧
        (i : Int) < peers.length - cfg.minLazyPeers ∧ best = (gapAt peers i, (i : Int)) ∧
        ∀ j : Nat, cfg.minEagerPeers ≤ j → j < i → gapAt peers j < gapAt peers i) := by
  have hposEager := hcfg.minEager
  obtain ⟨hbound, hbest⟩ := largestGap_spec peers cfg.minEagerPeers.toNat
    ((peers.length : Int) - cfg.minLazyPeers - cfg.minEagerPeers).toNat (0, cfg.minEagerPeers)
  refine ⟨_, ?_, fun j hlo hhi => hbound j (by omega) (by omega), ?_⟩
  · unfold gapIndex
    dsimp only
    rw [hgo, if_neg (not_le.mpr hlarge)]
  · rcases hbest with hsame | ⟨i, hlo, hhi, heq, hfirst⟩
    · exact .inl hsame
    · exact .inr ⟨i, by omega, by omega, heq, fun j hjlo hj => hfirst j (by omega) hj⟩

private theorem clampGap_capped_iff {cfg : OverlayConfig} (hcfg : cfg.Positive)
    (hminEager : cfg.minEagerPeers ≤ cfg.maxEagerPeers)
    (hminLazy : cfg.minLazyPeers ≤ cfg.maxLazyPeers)
    (hsum : cfg.maxEagerPeers + cfg.maxLazyPeers < 2 ^ 63) {peers : List PeerInfo}
    (hone : OneCluster peers)
    (hlen : (peers.length : Int) ≤ cfg.maxEagerPeers + cfg.maxLazyPeers) :
    (peers.length : Int) - clampGap cfg peers.length (gapIndex cfg peers) ≤ cfg.maxLazyPeers ↔
      ¬ ThresholdSplit cfg peers := by
  have hposEager := hcfg.minEager
  have hposLazy := hcfg.minLazy
  have hgo := goInt_of_lt (show 0 ≤ cfg.minEagerPeers + cfg.minLazyPeers by omega) (by omega)
  rw [thresholdSplit_iff hcfg hone]
  by_cases hsmall : (peers.length : Int) ≤ cfg.minEagerPeers + cfg.minLazyPeers
  · rw [clampGap_small hcfg hminEager (by omega) hsmall]
    constructor
    · rintro - ⟨j, hlo, hhi, -⟩
      omega
    · intro
      omega
  · obtain ⟨best, hgap, hbound, hbest⟩ := gapIndex_large hcfg hgo (not_le.mp hsmall)
    by_cases hflat : best.1 < rttGapThreshold
    · rw [hgap, if_pos hflat, clampGap_flat hcfg hminEager hgo (by omega)]
      constructor
      · rintro - ⟨j, hlo, hhi, hj⟩
        have hle := hbound j (by omega) (by omega)
        rw [hj, Int64.le_iff_toInt_le] at hle
        rw [Int64.lt_iff_toInt_lt] at hflat
        omega
      · intro
        omega
    · rcases hbest with rfl | ⟨i, hlo, hhi, rfl, hfirst⟩
      · exact absurd (show (0 : Int64) < rttGapThreshold by decide) hflat
      · have hi : gapAt peers i = rttGapThreshold := by
          have hle := hone.gapAt_le i (by omega)
          have hge := Int64.not_lt.mp hflat
          exact Int64.le_antisymm hle hge
        rw [hgap, if_neg hflat, clampGap_split hcfg hminEager (by omega) (by omega)]
        constructor
        · rintro hcapped ⟨j, hjlo, hjhi, hj⟩
          have hless := hfirst j (by omega) (by omega)
          rw [hj, hi] at hless
          exact Int64.lt_irrefl hless
        · intro hnone
          by_contra hcapped
          exact hnone ⟨i, by omega, by omega, hi⟩

/--
Without an overflow of the two maxima, the number of lazy peers is within its
maximum exactly if the retained peers have no threshold split; with one,
`Reclassify` panics on every single cluster and drops all peers otherwise.
-/
theorem reclassify_lazy_capped_iff (cfg : OverlayConfig) (hrange : cfg.InRange) (o : Overlay)
    (hcfg : o.cfg = cfg.withDefaults)
    (hminEager : o.cfg.minEagerPeers ≤ o.cfg.maxEagerPeers)
    (hminLazy : o.cfg.minLazyPeers ≤ o.cfg.maxLazyPeers) (sorter : SortSlice)
    (peers : List PeerInfo) :
    (∃ o', o.reclassify sorter peers = some o' ∧
      (o'.lazyPeers.length : Int) ≤ o.cfg.maxLazyPeers) ↔
    if o.cfg.maxEagerPeers + o.cfg.maxLazyPeers < 2 ^ 63 then
      ∀ kept, capPeers o.cfg (sorter.sort (o.others peers)) = some kept →
        ¬ ThresholdSplit o.cfg kept
    else o.others peers = [] ∨ ¬ OneCluster (sorter.sort (o.others peers)) := by
  have hpos : o.cfg.Positive := hcfg ▸ cfg.withDefaults_positive
  have hrange' : o.cfg.InRange := hcfg ▸ hrange.withDefaults
  have hposLazy := hpos.minLazy
  have hmaxLazy := hpos.maxLazy
  split
  · next hsum =>
      obtain ⟨kept, o', hkept, ho', hlen, heager, hboth⟩ :=
        reclassify_counts hpos hsum sorter peers
      have hgoal : (∃ o'', o.reclassify sorter peers = some o'' ∧
          (o''.lazyPeers.length : Int) ≤ o.cfg.maxLazyPeers) ↔
          (kept.length : Int) - o'.eagerPeers.length ≤ o.cfg.maxLazyPeers := by
        rw [ho']
        simp only [Option.some.injEq, exists_eq_left']
        omega
      have hkeptAll : (∀ kept', capPeers o.cfg (sorter.sort (o.others peers)) = some kept' →
          ¬ ThresholdSplit o.cfg kept') ↔ ¬ ThresholdSplit o.cfg kept := by
        simp [hkept]
      rw [hgoal, hkeptAll, heager]
      clear hgoal hkeptAll heager ho' hkept
      by_cases hone : OneCluster kept
      · rw [if_pos hone]
        exact clampGap_capped_iff hpos hminEager hminLazy hsum hone (by omega)
      · have hsplit : ¬ ThresholdSplit o.cfg kept := fun h => hone h.1
        rw [if_neg hone]
        simp only [hsplit, not_false_eq_true, iff_true, eagerBudget]
        omega
  · next hsum =>
      rw [reclassify_overflow hpos hrange' (by omega)]
      split
      · next hpanic =>
          simp only [reduceCtorEq, false_and, exists_false, false_iff, not_or, not_not]
          exact hpanic
      · next hempty =>
          simp only [Option.some.injEq, exists_eq_left', List.length_nil]
          rw [not_and_or, not_not] at hempty
          simp only [hempty, iff_true]
          omega

def fourteenPeers : List PeerInfo :=
  ["b", "c", "d", "e"].map (fun id => ⟨id, id, 1000000⟩) ++
    ["f", "g", "h", "i", "j", "k", "l", "m", "n", "o"].map (fun id => ⟨id, id, 6000000⟩)

/-- The default configuration allows six lazy peers and gets ten. -/
theorem fourteenPeers_lazy :
    let o := new "a" ⟨0, 0, 0, 0⟩
    o.cfg.minEagerPeers ≤ o.cfg.maxEagerPeers ∧ o.cfg.minLazyPeers ≤ o.cfg.maxLazyPeers ∧
    o.cfg.maxLazyPeers = 6 ∧
    (o.reclassify .insertion fourteenPeers).map (fun o' => o'.lazyPeers.length) = some 10 := by
  refine ⟨by decide, by decide, rfl, by decide⟩

theorem reclassify_lazy_capped_twoRegions :
    (OverlayConfig.InRange ⟨0, 0, 0, 0⟩ ∧
      (new "a" ⟨0, 0, 0, 0⟩).cfg = OverlayConfig.withDefaults ⟨0, 0, 0, 0⟩ ∧
      (4 : Int) ≤ 8 ∧ (2 : Int) ≤ 6 ∧
      capPeers (OverlayConfig.withDefaults ⟨0, 0, 0, 0⟩)
        (SortSlice.insertion.sort twoRegions) = some twoRegions ∧ ¬ OneCluster twoRegions) ∧
    ∃ o', (new "a" ⟨0, 0, 0, 0⟩).reclassify .insertion twoRegions = some o' ∧
      (o'.lazyPeers.length : Int) ≤ 6 := by
  have hkept : capPeers (OverlayConfig.withDefaults ⟨0, 0, 0, 0⟩)
      (SortSlice.insertion.sort twoRegions) = some twoRegions := by decide
  have hmany : ¬ OneCluster twoRegions := by decide
  refine ⟨⟨⟨by decide, by decide, by decide, by decide⟩, rfl, by decide, by decide, hkept,
    hmany⟩, ?_⟩
  refine (reclassify_lazy_capped_iff ⟨0, 0, 0, 0⟩ ⟨by decide, by decide, by decide, by decide⟩
    (new "a" ⟨0, 0, 0, 0⟩) rfl (by decide) (by decide) .insertion twoRegions).mpr ?_
  rw [if_pos (by decide)]
  intro kept hcap hsplit
  cases hkept.symm.trans hcap
  exact hmany hsplit.1

/-! ## Both lower bounds -/

private theorem clampGap_minimums {cfg : OverlayConfig} (hcfg : cfg.Positive)
    (hmin : cfg.minEagerPeers ≤ cfg.maxEagerPeers)
    (hsum : cfg.minEagerPeers + cfg.minLazyPeers < 2 ^ 63) {peers : List PeerInfo}
    (hlen : cfg.minEagerPeers + cfg.minLazyPeers ≤ peers.length) :
    cfg.minEagerPeers ≤ clampGap cfg peers.length (gapIndex cfg peers) ∧
      clampGap cfg peers.length (gapIndex cfg peers) + cfg.minLazyPeers ≤ peers.length := by
  have hposEager := hcfg.minEager
  have hposLazy := hcfg.minLazy
  have hgo := goInt_of_lt (by omega) hsum
  by_cases hsmall : (peers.length : Int) ≤ cfg.minEagerPeers + cfg.minLazyPeers
  · rw [clampGap_small hcfg hmin hsum hsmall]
    omega
  · obtain ⟨best, hgap, -, hbest⟩ := gapIndex_large hcfg hgo (not_le.mp hsmall)
    by_cases hflat : best.1 < rttGapThreshold
    · rw [hgap, if_pos hflat, clampGap_flat hcfg hmin hgo (not_le.mp hsmall)]
      omega
    · rcases hbest with rfl | ⟨i, hlo, hhi, rfl, -⟩
      · exact absurd (show (0 : Int64) < rttGapThreshold by decide) hflat
      · rw [hgap, if_neg hflat, clampGap_split hcfg hmin hlo hhi]
        omega

/--
With peers and slots enough for both minima, both are met exactly if the sum of
the two maxima does not wrap.
-/
theorem reclassify_minimums_iff (cfg : OverlayConfig) (hrange : cfg.InRange) (o : Overlay)
    (hcfg : o.cfg = cfg.withDefaults)
    (hmin : o.cfg.minEagerPeers ≤ o.cfg.maxEagerPeers) (sorter : SortSlice)
    (peers : List PeerInfo)
    (henough : o.cfg.minEagerPeers + o.cfg.minLazyPeers ≤
      min ((o.others peers).length : Int) (o.cfg.maxEagerPeers + o.cfg.maxLazyPeers)) :
    (∃ o', o.reclassify sorter peers = some o' ∧
      o.cfg.minEagerPeers ≤ o'.eagerPeers.length ∧ o.cfg.minLazyPeers ≤ o'.lazyPeers.length) ↔
    o.cfg.maxEagerPeers + o.cfg.maxLazyPeers < 2 ^ 63 := by
  have hpos : o.cfg.Positive := hcfg ▸ cfg.withDefaults_positive
  have hposEager := hpos.minEager
  constructor
  · rintro ⟨o', ho', heager, -⟩
    by_contra hsum
    rw [reclassify_overflow hpos (hcfg ▸ hrange.withDefaults) (not_lt.mp hsum)] at ho'
    split at ho'
    · cases ho'
    · cases ho'
      simp only [List.length_nil] at heager
      omega
  · intro hsum
    obtain ⟨kept, o', -, ho', hlen, heager, hboth⟩ := reclassify_counts hpos hsum sorter peers
    rw [← hlen] at henough
    refine ⟨o', ho', ?_⟩
    by_cases hone : OneCluster kept
    · rw [if_pos hone] at heager
      obtain ⟨hlow, hhigh⟩ := clampGap_minimums hpos hmin (by omega) henough
      omega
    · rw [if_neg hone, eagerBudget] at heager
      omega

def sixPeers : List PeerInfo :=
  ["b", "c", "d", "e", "f", "g"].map fun id => ⟨id, id, 1000000⟩

theorem reclassify_minimums_sixPeers :
    (OverlayConfig.InRange ⟨0, 0, 0, 0⟩ ∧
      (new "a" ⟨0, 0, 0, 0⟩).cfg = OverlayConfig.withDefaults ⟨0, 0, 0, 0⟩ ∧
      (4 : Int) ≤ 8 ∧ (4 : Int) + 2 ≤ min 6 (8 + 6)) ∧
    ∃ o', (new "a" ⟨0, 0, 0, 0⟩).reclassify .insertion sixPeers = some o' ∧
      (4 : Int) ≤ o'.eagerPeers.length ∧ (2 : Int) ≤ o'.lazyPeers.length :=
  ⟨⟨⟨by decide, by decide, by decide, by decide⟩, rfl, by decide, by decide⟩,
    (reclassify_minimums_iff ⟨0, 0, 0, 0⟩ ⟨by decide, by decide, by decide, by decide⟩
      (new "a" ⟨0, 0, 0, 0⟩) rfl (by decide) .insertion sixPeers (by decide)).mpr (by decide)⟩

/-- With the eager maximum at the largest `int` the total wraps, and the slice of it panics. -/
theorem sixPeers_panic :
    let o := new "a" ⟨0, 2 ^ 63 - 1, 0, 0⟩
    o.cfg.minEagerPeers ≤ o.cfg.maxEagerPeers ∧ o.cfg.maxEagerPeers < 2 ^ 63 ∧
    o.cfg.minEagerPeers + o.cfg.minLazyPeers ≤
      min ((o.others sixPeers).length : Int) (o.cfg.maxEagerPeers + o.cfg.maxLazyPeers) ∧
    (o.reclassify .insertion sixPeers).isNone := by
  refine ⟨by decide, by decide, by decide, by decide⟩

end Overlay

end GossipMesh
