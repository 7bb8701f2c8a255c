import GossipMesh.Overlay.Diversity

/-!
# More clusters than slots

With no more slots than clusters, sampling picks the first peer of as many
clusters as there are slots, all of them distinct and spread evenly over the
list.  This holds for the cap and for the eager peers alike.
-/

namespace GossipMesh

open GossipMesh.Foundation

section Lists

variable {α β : Type}

theorem flagged_indicator {xs : List α} {start : Nat} {ps : List Nat}
    (hsorted : ps.Pairwise (· < ·)) (hlow : ∀ p ∈ ps, start ≤ p)
    (hhigh : ∀ p ∈ ps, p < start + xs.length) :
    flagged true xs (indicator start xs.length ps) = ps.filterMap fun p => xs[p - start]? := by
  induction xs generalizing start ps with
  | nil =>
      cases ps with
      | nil => simp [flagged]
      | cons p ps =>
          have hle := hlow p (by simp)
          have hlt := hhigh p (by simp)
          simp at hlt
          omega
  | cons x xs ih =>
      have hbehind : ∀ qs : List Nat, qs.Pairwise (· < ·) → (∀ q ∈ qs, start + 1 ≤ q) →
          (∀ q ∈ qs, q < start + (x :: xs).length) →
          flagged true xs (indicator (start + 1) xs.length qs) =
            qs.filterMap fun q => (x :: xs)[q - start]? := by
        intro qs hqs hqlow hqhigh
        rw [ih hqs hqlow fun q hq => by
          have := hqhigh q hq
          rw [List.length_cons] at this
          omega]
        apply List.filterMap_congr
        intro q hq
        have := hqlow q hq
        rw [show q - start = q - (start + 1) + 1 by omega, List.getElem?_cons_succ]
      rw [List.length_cons, indicator_succ, flagged_cons]
      -- the first position is taken, or all positions are behind it
      rcases ps with _ | ⟨p, ps⟩
      · exact hbehind [] hsorted (by simp) (by simp)
      · obtain ⟨hbelow, hrest⟩ := List.pairwise_cons.mp hsorted
        by_cases hp : p = start
        · subst hp
          rw [if_pos (by simp), indicator_cons_of_lt (Nat.lt_succ_self p),
            hbehind ps hrest hbelow fun q hq => hhigh q (by simp [hq])]
          simp
        · have hlow' : ∀ q ∈ p :: ps, start + 1 ≤ q := by
            have hpos := hlow p (by simp)
            intro q hq
            rcases List.mem_cons.mp hq with rfl | hq
            · omega
            · have := hbelow q hq
              omega
          have hnot : start ∉ p :: ps := fun hmem => by
            have := hlow' start hmem
            omega
          rw [if_neg (by simpa using hnot)]
          exact hbehind (p :: ps) hsorted hlow' hhigh

theorem forall₂_filterMap {f : α → Option β} {xs : List α} (h : ∀ x ∈ xs, (f x).isSome) :
    List.Forall₂ (fun x y => f x = some y) xs (xs.filterMap f) := by
  induction xs with
  | nil => exact .nil
  | cons x xs ih =>
      obtain ⟨y, hy⟩ := Option.isSome_iff_exists.mp (h x (by simp))
      rw [List.filterMap_cons_some hy]
      exact .cons hy (ih fun x' hx' => h x' (by simp [hx']))

end Lists

/--
One peer of each of `r` clusters, the first.  The nearest cluster is among
them, and there are none `⌈k / r⌉` in a row without one, of `k` in all.
-/
def EvenSample (peers : List PeerInfo) (r : Nat) (chosen : List PeerInfo) : Prop :=
  ∃ picks : List Nat, picks.Pairwise (· < ·) ∧ picks.length = r ∧
    List.Forall₂ (fun c p => ∃ cluster, (rttClusters peers)[c]? = some cluster ∧
      cluster.head? = some p) picks chosen ∧
    0 ∈ picks ∧
    ∀ first, first + ((rttClusters peers).length + r - 1) / r ≤ (rttClusters peers).length →
      ∃ c ∈ picks, first ≤ c ∧ c < first + ((rttClusters peers).length + r - 1) / r

theorem EvenSample.length_eq {peers chosen : List PeerInfo} {r : Nat}
    (h : EvenSample peers r chosen) : chosen.length = r := by
  obtain ⟨picks, -, hcount, hall, -, -⟩ := h
  rw [← hall.length_eq, hcount]

theorem sampleClusters_few {peers : List PeerInfo} {r : Nat}
    (hrk : r ≤ (rttClusters peers).length) :
    sampleClusters (findRTTClusters peers) r peers.length =
      some (indicator 0 peers.length (sampled (clusterLengths peers) r)) := by
  have hmin : (min (r : Int) (rttClusters peers).length).toNat = r := by omega
  rw [sampleClusters_fill, hmin, fillSlots_of_le (le_refl (r : Int))]

private theorem getElem?_slot {peers : List PeerInfo} {r i : Nat} (hi : i < r)
    (hrk : r ≤ (rttClusters peers).length) :
    peers[slot (clusterLengths peers) r i]? =
      (rttClusters peers)[i * (rttClusters peers).length / r]?.bind List.head? := by
  have hlens := clusterLengths_length peers
  have hlt : i * (rttClusters peers).length / r < (starts 0 (clusterLengths peers)).length := by
    rw [starts_length, hlens]
    exact spread_lt_of_lt (by omega) hi
  have hhead := getElem?_starts (nil_notMem_rttClusters peers) []
    (i * (rttClusters peers).length / r)
  rw [flatten_rttClusters, ← clusterLengths, List.nil_append, List.length_nil,
    List.getElem?_eq_getElem hlt, Option.bind_some] at hhead
  rw [slot, hlens, List.getElem?_eq_getElem hlt, Option.getD_some, hhead]

theorem evenSample_flagged {peers : List PeerInfo} {r : Nat} (hr : 0 < r)
    (hrk : r ≤ (rttClusters peers).length) :
    EvenSample peers r
      (flagged true peers (indicator 0 peers.length (sampled (clusterLengths peers) r))) := by
  have hlens := clusterLengths_length peers
  have hpos := clusterLengths_pos peers
  have hchosen : flagged true peers
      (indicator 0 peers.length (sampled (clusterLengths peers) r)) =
      ((List.range r).map fun i => i * (rttClusters peers).length / r).filterMap
        fun c => (rttClusters peers)[c]?.bind List.head? := by
    rw [flagged_indicator (sampled_pairwise hpos (by omega)) (by simp) (by
      rw [Nat.zero_add, ← clusterLengths_sum]
      exact sampled_lt hpos (by omega)), sampled, List.filterMap_map, List.filterMap_map]
    exact List.filterMap_congr fun i hi => getElem?_slot (List.mem_range.mp hi) hrk
  refine ⟨(List.range r).map fun i => i * (rttClusters peers).length / r, ?_, by simp, ?_, ?_, ?_⟩
  · rw [List.pairwise_map]
    exact List.pairwise_lt_range.imp fun hij => spread_lt hr hrk hij
  · rw [hchosen]
    refine (forall₂_filterMap ?_).imp ?_
    · intro c hc
      obtain ⟨i, hi, rfl⟩ := List.mem_map.mp hc
      have hlt : i * (rttClusters peers).length / r < (rttClusters peers).length :=
        spread_lt_of_lt (by omega) (List.mem_range.mp hi)
      have hne : (rttClusters peers)[i * (rttClusters peers).length / r] ≠ [] :=
        fun hnil => nil_notMem_rttClusters peers (hnil ▸ List.getElem_mem hlt)
      rw [List.getElem?_eq_getElem hlt, Option.bind_some, List.isSome_head?]
      simpa using hne
    · intro c p hp
      exact Option.bind_eq_some_iff.mp hp
  · exact List.mem_map.mpr ⟨0, by simpa using hr, by simp⟩
  · intro first hfirst
    obtain ⟨i, hi, hlow, hhigh⟩ := spread_dense hr (by omega) hfirst
    exact ⟨_, List.mem_map.mpr ⟨i, List.mem_range.mpr hi, rfl⟩, hlow, hhigh⟩

theorem selectDiversePeers_even {peers : List PeerInfo} {r : Nat} (hr : 0 < r)
    (hrk : r ≤ (rttClusters peers).length) (hmany : 2 ≤ (rttClusters peers).length) :
    ∃ chosen, selectDiversePeers peers r = some chosen ∧ EvenSample peers r chosen := by
  refine ⟨_, ?_, evenSample_flagged hr hrk⟩
  unfold selectDiversePeers
  dsimp only
  rw [findRTTClusters_length, if_neg (by omega), sampleClusters_few hrk]
  rfl

namespace Overlay

/--
If the budget of eager peers, `r`, is no larger than the number `k` of clusters
of the retained peers, the eager peers are an even sample of the clusters; and
so is what `selectDiversePeers` retains of no fewer clusters than its total.
-/
theorem reclassify_evenSample (cfg : OverlayConfig) (o : Overlay)
    (hcfg : o.cfg = cfg.withDefaults) (sorter : SortSlice) (peers kept : List PeerInfo)
    (hkept : capPeers o.cfg (sorter.sort (o.others peers)) = some kept) (r : Nat)
    (hr : (r : Int) = min o.cfg.maxEagerPeers ((kept.length : Int) - o.cfg.minLazyPeers))
    (hmany : 2 ≤ (rttClusters kept).length) (hpos : 1 ≤ r)
    (hfew : r ≤ (rttClusters kept).length) :
    (∃ o', o.reclassify sorter peers = some o' ∧ o'.eagerPeers.length = r ∧
      EvenSample kept r (o'.eagerPeers.map OverlayPeer.info)) ∧
    ∀ (list : List PeerInfo) (totalMax : Nat), 2 ≤ (rttClusters list).length → 1 ≤ totalMax →
      totalMax ≤ (rttClusters list).length →
      ∃ chosen, selectDiversePeers list totalMax = some chosen ∧ chosen.length = totalMax ∧
        EvenSample list totalMax chosen := by
  constructor
  · obtain ⟨flags, hflags, -, hreclassify⟩ :=
      reclassify_eq (hcfg ▸ cfg.withDefaults_positive) sorter hkept
    have hbudget : eagerBudget o.cfg kept.length = (r : Int) := by
      unfold eagerBudget
      omega
    rw [selectEager_multiple (by omega), hbudget, sampleClusters_few hfew] at hflags
    cases hflags
    have hsample := evenSample_flagged hpos hfew
    refine ⟨_, hreclassify, ?_, ?_⟩
    · rw [List.length_map]
      exact hsample.length_eq
    · rw [List.map_map]
      simpa [Function.comp_def] using hsample
  · intro list totalMax hmany' hpos' hfew'
    obtain ⟨chosen, hchosen, hsample⟩ := selectDiversePeers_even hpos' hfew' hmany'
    exact ⟨chosen, hchosen, hsample.length_eq, hsample⟩

def fourRegions : List PeerInfo :=
  [⟨"b", "b:1", 1000000⟩, ⟨"c", "c:1", 50000000⟩, ⟨"d", "d:1", 100000000⟩,
    ⟨"e", "e:1", 150000000⟩]

theorem reclassify_evenSample_fourRegions :
    ((new "a" ⟨0, 0, 0, 0⟩).cfg = OverlayConfig.withDefaults ⟨0, 0, 0, 0⟩ ∧
      capPeers (OverlayConfig.withDefaults ⟨0, 0, 0, 0⟩)
        (SortSlice.insertion.sort fourRegions) = some fourRegions ∧
      ((2 : Nat) : Int) = min 8 (4 - 2) ∧ (rttClusters fourRegions).length = 4) ∧
    ∃ o', (new "a" ⟨0, 0, 0, 0⟩).reclassify .insertion fourRegions = some o' ∧
      o'.eagerPeers.length = 2 ∧
      EvenSample fourRegions 2 (o'.eagerPeers.map OverlayPeer.info) :=
  ⟨⟨rfl, by decide, by decide, by decide⟩,
    (reclassify_evenSample ⟨0, 0, 0, 0⟩ (new "a" ⟨0, 0, 0, 0⟩) rfl .insertion fourRegions
      fourRegions (by decide) 2 (by decide) (by decide) (by decide) (by decide)).1⟩

end Overlay

end GossipMesh
