import GossipMesh.Mesh.Mesh
import GossipMesh.Overlay.Partition

/-!
# The order of the peers

`LivePeers` ranges over a map, so it lists the peers in any order, and
`sort.Slice` may leave peers at the same distance in any order.  The decisions
of `Reclassify` read nothing of a peer but its round-trip time, so neither
choice shows in the distances at which a node has eager and lazy peers.
-/

namespace GossipMesh

def rtts (peers : List PeerInfo) : List Int64 := peers.map PeerInfo.rtt

variable {peers others : List PeerInfo}

theorem rtts_length (h : rtts peers = rtts others) : peers.length = others.length := by
  simpa [rtts] using congrArg List.length h

theorem rtts_flagged (h : rtts peers = rtts others) (value : Bool) (flags : List Bool) :
    rtts (flagged value peers flags) = rtts (flagged value others flags) := by
  induction peers generalizing others flags with
  | nil =>
      obtain rfl : others = [] := by simpa [rtts] using h.symm
      rfl
  | cons p peers ih =>
      cases others with
      | nil => simp [rtts] at h
      | cons q others =>
          obtain ⟨hrtt, hrest⟩ : p.rtt = q.rtt ∧ rtts peers = rtts others := by
            simpa [rtts] using h
          cases flags with
          | nil => rfl
          | cons flag flags =>
              rw [flagged_cons, flagged_cons]
              split
              · simpa [rtts, hrtt] using ih hrest flags
              · exact ih hrest flags

/-! ## Decisions read only round-trip times -/

private theorem clusterLoop_rtts (h : rtts peers = rtts others) (prev : Int64) (i : Nat)
    (clusters : List (List Nat)) :
    clusterLoop prev i clusters peers = clusterLoop prev i clusters others := by
  induction peers generalizing others prev i clusters with
  | nil =>
      obtain rfl : others = [] := by simpa [rtts] using h.symm
      rfl
  | cons p peers ih =>
      cases others with
      | nil => simp [rtts] at h
      | cons q others =>
          obtain ⟨hrtt, hrest⟩ : p.rtt = q.rtt ∧ rtts peers = rtts others := by
            simpa [rtts] using h
          simp only [clusterLoop, hrtt]
          split
          · exact ih hrest _ _ _
          · exact ih hrest _ _ _

theorem findRTTClusters_rtts (h : rtts peers = rtts others) :
    findRTTClusters peers = findRTTClusters others := by
  cases peers with
  | nil =>
      obtain rfl : others = [] := by simpa [rtts] using h.symm
      rfl
  | cons p peers =>
      cases others with
      | nil => simp [rtts] at h
      | cons q others =>
          obtain ⟨hrtt, hrest⟩ : p.rtt = q.rtt ∧ rtts peers = rtts others := by
            simpa [rtts] using h
          rw [findRTTClusters, findRTTClusters, hrtt]
          exact clusterLoop_rtts hrest _ _ _

private theorem getElem?_rtt (h : rtts peers = rtts others) (i : Nat) :
    peers[i]?.map PeerInfo.rtt = others[i]?.map PeerInfo.rtt := by
  rw [← List.getElem?_map, ← List.getElem?_map]
  exact congrArg (·[i]?) h

private theorem gapTurn_rtts (h : rtts peers = rtts others) : gapTurn peers = gapTurn others := by
  funext best i
  have hread : ∀ list : List PeerInfo, gapTurn list best i =
      (list[i]?.map PeerInfo.rtt).bind fun p => (list[i - 1]?.map PeerInfo.rtt).bind fun q =>
        if best.1 < p - q then some (p - q, (i : Int)) else some best := by
    intro list
    cases hi : list[i]? <;> cases hj : list[i - 1]? <;> simp [gapTurn, hi, hj]
  rw [hread, hread, getElem?_rtt h, getElem?_rtt h]

private theorem findRTTGap_rtts (h : rtts peers = rtts others) (cfg : OverlayConfig) :
    findRTTGap cfg peers = findRTTGap cfg others := by
  rw [findRTTGap, findRTTGap, rtts_length h, gapTurn_rtts h]

theorem selectEager_rtts (h : rtts peers = rtts others) (cfg : OverlayConfig) :
    selectEager cfg peers = selectEager cfg others := by
  rw [selectEager, selectEager, findRTTClusters_rtts h, findRTTGap_rtts h, rtts_length h]

private theorem selectDiversePeers_rtts (h : rtts peers = rtts others) (totalMax : Int) :
    (selectDiversePeers peers totalMax).map rtts =
      (selectDiversePeers others totalMax).map rtts := by
  simp only [selectDiversePeers, findRTTClusters_rtts h, rtts_length h]
  split
  · split
    · simp only [Option.map_some, rtts, List.map_take, Option.some.injEq]
      exact congrArg _ h
    · rfl
  · cases sampleClusters (findRTTClusters others) totalMax others.length with
    | none => rfl
    | some selected => exact congrArg some (rtts_flagged h true selected)

theorem capPeers_rtts (h : rtts peers = rtts others) (cfg : OverlayConfig) :
    (capPeers cfg peers).map rtts = (capPeers cfg others).map rtts := by
  simp only [capPeers, rtts_length h]
  split
  · exact selectDiversePeers_rtts h _
  · exact congrArg some h

/-! ## Sorted lists -/

theorem rtt_le_antisymm {a b : Int64} (hab : a ≤ b) (hba : b ≤ a) : a = b := by
  rw [Int64.le_iff_toInt_le] at hab hba
  exact Int64.toInt_inj.mp (le_antisymm hab hba)

theorem rtts_sort (hperm : peers.Perm others) (sorter sorter' : SortSlice) :
    rtts (sorter.sort peers) = rtts (sorter'.sort others) := by
  have hsorted : ∀ (s : SortSlice) (list : List PeerInfo),
      (rtts (s.sort list)).Pairwise (· ≤ ·) :=
    fun s list => List.pairwise_map.mpr (s.sorted list)
  have hsame : (sorter.sort peers).Perm (sorter'.sort others) :=
    (sorter.perm peers).trans (hperm.trans (sorter'.perm others).symm)
  exact List.Perm.eq_of_pairwise (fun a b _ _ hab hba => rtt_le_antisymm hab hba)
    (hsorted sorter peers) (hsorted sorter' others) (hsame.map _)

theorem sort_eq (hperm : peers.Perm others) (hdistinct : (rtts peers).Nodup)
    (sorter sorter' : SortSlice) : sorter.sort peers = sorter'.sort others := by
  have hsame : (sorter.sort peers).Perm (sorter'.sort others) :=
    (sorter.perm peers).trans (hperm.trans (sorter'.perm others).symm)
  refine List.Perm.eq_of_pairwise (fun a b ha hb hab hba => ?_)
    (sorter.sorted peers) (sorter'.sorted others) hsame
  have ha : a ∈ peers := (sorter.perm peers).mem_iff.mp ha
  have hb : b ∈ peers := hperm.mem_iff.mpr ((sorter'.perm others).mem_iff.mp hb)
  exact List.inj_on_of_nodup_map hdistinct ha hb (rtt_le_antisymm hab hba)

/-! ## Reclassification -/

namespace Overlay

def distances (o : Overlay) : List Int64 × List Int64 :=
  (o.eagerPeers.map OverlayPeer.rtt, o.lazyPeers.map OverlayPeer.rtt)

private theorem map_rtt_classify (isEager : Bool) (list : List PeerInfo) :
    (list.map (classify isEager)).map OverlayPeer.rtt = rtts list := by
  rw [List.map_map]
  rfl

theorem reclassify_distances (o : Overlay) (hperm : peers.Perm others)
    (sorter sorter' : SortSlice) :
    (o.reclassify sorter peers).map distances = (o.reclassify sorter' others).map distances := by
  have hfilter := hperm.filter fun p => decide (p.nodeID ≠ o.self)
  have hcap := capPeers_rtts (rtts_sort hfilter sorter sorter') o.cfg
  simp only [reclassify, hfilter.length_eq]
  split
  · rfl
  · cases hkept : capPeers o.cfg
        (sorter.sort (peers.filter fun p => decide (p.nodeID ≠ o.self))) with
    | none =>
        rw [hkept] at hcap
        rw [Option.map_eq_none_iff.mp hcap.symm]
    | some kept =>
        rw [hkept] at hcap
        obtain ⟨kept', hkept', hrtts⟩ := Option.map_eq_some_iff.mp hcap.symm
        rw [hkept']
        simp only [Option.bind_eq_bind, Option.bind_some, selectEager_rtts hrtts.symm]
        cases selectEager o.cfg kept' with
        | none => rfl
        | some isEager =>
            simp only [Option.bind_some, Option.map_some, distances, map_rtt_classify,
              rtts_flagged hrtts]

private theorem reclassify_eq_of_distinct (o : Overlay) (hperm : peers.Perm others)
    (hdistinct : (rtts peers).Nodup) (sorter sorter' : SortSlice) :
    o.reclassify sorter peers = o.reclassify sorter' others := by
  have hfilter := hperm.filter fun p => decide (p.nodeID ≠ o.self)
  have hsub : (rtts (peers.filter fun p => decide (p.nodeID ≠ o.self))).Nodup :=
    hdistinct.sublist (List.filter_sublist.map _)
  rw [reclassify, reclassify, sort_eq hfilter hsub sorter sorter', hfilter.length_eq]

end Overlay

namespace Mesh

variable {Coord : Type}

private theorem livePeers_perm {m : Membership Coord} {order order' : List String}
    (h : m.IterationOrder order) (h' : m.IterationOrder order') :
    (m.livePeers order).Perm (m.livePeers order') :=
  (List.perm_of_nodup_nodup_toFinset_eq h.1 h'.1 (h.2.trans h'.2.symm)).filterMap _

/--
Neither the order in which `LivePeers` ranges over the map nor what the sort
does with ties matters for the distances at which a node has eager and lazy
peers.  If no two peers are at the same distance, the overlay is the same.
-/
theorem reclassify_any_order (m : Membership Coord) (o : Overlay) {order order' : List String}
    (h : m.IterationOrder order) (h' : m.IterationOrder order') (sorter sorter' : SortSlice) :
    (o.reclassify sorter ((m.livePeers order).map overlayPeer)).map Overlay.distances =
        (o.reclassify sorter' ((m.livePeers order').map overlayPeer)).map Overlay.distances ∧
      ((rtts ((m.livePeers order).map overlayPeer)).Nodup →
        o.reclassify sorter ((m.livePeers order).map overlayPeer) =
          o.reclassify sorter' ((m.livePeers order').map overlayPeer)) := by
  have hperm := (livePeers_perm h h').map overlayPeer
  exact ⟨o.reclassify_distances hperm sorter sorter',
    fun hdistinct => o.reclassify_eq_of_distinct hperm hdistinct sorter sorter'⟩

def sampleInfo (name : String) (rtt : Int64) : Membership.PeerInfo Unit where
  nodeID := name
  addr := "10.0.0.1"
  nodeMeta := ⟨name, none, "10.0.0.1", 7947, []⟩
  rtt := rtt
  alive := true

def twoPeers : Membership Unit :=
  { Membership.new with
    peers := ((∅ : Finmap _).insert "b" (sampleInfo "b" 1000000)).insert "c"
      (sampleInfo "c" 9000000) }

theorem reclassify_any_order_twoPeers :
    twoPeers.IterationOrder ["b", "c"] ∧ twoPeers.IterationOrder ["c", "b"] ∧
      (Overlay.new "a" ⟨0, 0, 0, 0⟩).reclassify .insertion
          ((twoPeers.livePeers ["b", "c"]).map overlayPeer) =
        (Overlay.new "a" ⟨0, 0, 0, 0⟩).reclassify .insertion
          ((twoPeers.livePeers ["c", "b"]).map overlayPeer) := by
  have h : twoPeers.IterationOrder ["b", "c"] := by decide
  have h' : twoPeers.IterationOrder ["c", "b"] := by decide
  exact ⟨h, h', (reclassify_any_order twoPeers (.new "a" ⟨0, 0, 0, 0⟩) h h' .insertion
    .insertion).2 (by decide)⟩

end Mesh

end GossipMesh
