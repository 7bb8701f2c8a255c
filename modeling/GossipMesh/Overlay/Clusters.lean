import GossipMesh.Foundation.Blocks
import GossipMesh.Overlay.Reclassify

/-!
# Clusters and the slots sampled from them

`findRTTClusters` numbers the runs of peers whose adjacent round-trip times
are near.  Sampling marks the first peer of evenly spread clusters, all of
them distinct, and fills up from the front, so the number of marked peers is
known exactly.  In particular the number of eager peers is capped.
-/

namespace GossipMesh

open GossipMesh.Foundation

/-- Adjacent peers of one cluster; the difference is the code's own. -/
def near (p q : PeerInfo) : Bool :=
  decide (q.rtt - p.rtt ≤ rttGapThreshold)

def rttClusters (peers : List PeerInfo) : List (List PeerInfo) :=
  peers.splitBy near

def clusterLengths (peers : List PeerInfo) : List Nat :=
  (rttClusters peers).map List.length

theorem clusterLengths_length (peers : List PeerInfo) :
    (clusterLengths peers).length = (rttClusters peers).length :=
  List.length_map _

theorem clusterLengths_pos (peers : List PeerInfo) :
    ∀ len ∈ clusterLengths peers, 0 < len := by
  intro len hlen
  obtain ⟨cluster, hcluster, rfl⟩ := List.mem_map.mp hlen
  exact List.length_pos_iff.mpr (List.ne_nil_of_mem_splitBy hcluster)

theorem clusterLengths_sum (peers : List PeerInfo) :
    (clusterLengths peers).sum = peers.length := by
  rw [clusterLengths, ← List.length_flatten, rttClusters, List.flatten_splitBy]

/-! ## The index clusters of the code -/

private theorem appendLast_snoc (clusters : List (List Nat)) (last : List Nat) (i : Nat) :
    appendLast (clusters ++ [last]) i = clusters ++ [last ++ [i]] := by
  simp [appendLast]

private theorem clusterLoop_eq (p : PeerInfo) (rest : List PeerInfo) (i : Nat)
    (clusters : List (List Nat)) (last : List Nat) {run : List PeerInfo}
    {runs : List (List PeerInfo)} (h : rttClusters (p :: rest) = run :: runs) :
    clusterLoop p.rtt i (clusters ++ [last]) rest =
      clusters ++ (last ++ List.range' i (run.length - 1)) ::
        blocks (i + (run.length - 1)) (runs.map List.length) := by
  induction rest generalizing p i clusters last run runs with
  | nil =>
      cases h
      simp [clusterLoop, blocks]
  | cons q rest ih =>
      cases hnext : rttClusters (q :: rest) with
      | nil => simp [rttClusters] at hnext
      | cons next more =>
          have hpos : 0 < next.length := List.length_pos_iff.mpr
            (List.ne_nil_of_mem_splitBy (r := near) (l := q :: rest)
              (by rw [rttClusters] at hnext; simp [hnext]))
          have hrange : List.range' i next.length =
              i :: List.range' (i + 1) (next.length - 1) := by
            rw [← List.range'_succ, Nat.sub_add_cancel hpos]
          have hend : i + 1 + (next.length - 1) = i + next.length := by omega
          rw [clusterLoop]
          split
          · next hgap =>
              have hfar : near p q = false := by
                simpa [near, Int64.not_le] using hgap
              rw [rttClusters, splitBy_cons_of_unrelated hfar] at h
              obtain ⟨rfl, rfl⟩ := List.cons.inj h
              rw [ih q (i + 1) (clusters ++ [last]) [i] hnext, hend]
              rw [rttClusters] at hnext
              simp [hnext, blocks, hrange]
          · next hgap =>
              have hnear : near p q = true := by
                simpa [near, Int64.not_lt] using hgap
              rw [rttClusters, splitBy_cons_of_related hnear hnext] at h
              obtain ⟨rfl, rfl⟩ := List.cons.inj h
              rw [appendLast_snoc, ih q (i + 1) clusters (last ++ [i]) hnext, hend]
              simp [hrange]

theorem findRTTClusters_eq (peers : List PeerInfo) :
    findRTTClusters peers = blocks 0 (clusterLengths peers) := by
  cases peers with
  | nil => rfl
  | cons p rest =>
      cases hruns : rttClusters (p :: rest) with
      | nil => simp [rttClusters] at hruns
      | cons run runs =>
          have hpos : 0 < run.length := List.length_pos_iff.mpr
            (List.ne_nil_of_mem_splitBy (r := near) (l := p :: rest)
              (by rw [rttClusters] at hruns; simp [hruns]))
          have hloop := clusterLoop_eq p rest 1 [] [0] hruns
          have hend : 1 + (run.length - 1) = 0 + run.length := by omega
          have hrange : List.range' 0 run.length =
              0 :: List.range' (0 + 1) (run.length - 1) := by
            rw [← List.range'_succ, Nat.sub_add_cancel hpos]
          rw [findRTTClusters]
          simp only [List.nil_append] at hloop
          rw [hloop, hend, clusterLengths, hruns, List.map_cons, blocks, hrange]
          rfl

@[simp] theorem findRTTClusters_length (peers : List PeerInfo) :
    (findRTTClusters peers).length = (rttClusters peers).length := by
  simp [findRTTClusters_eq, clusterLengths]

/-! ## Sampled slots -/

def slot (lens : List Nat) (reserved i : Nat) : Nat :=
  (starts 0 lens)[i * lens.length / reserved]?.getD 0

def sampled (lens : List Nat) (reserved : Nat) : List Nat :=
  (List.range reserved).map (slot lens reserved)

theorem slot_eq {lens : List Nat} {reserved i : Nat} (hi : i < reserved)
    (hreserved : reserved ≤ lens.length) :
    ∃ h : i * lens.length / reserved < (starts 0 lens).length,
      slot lens reserved i = (starts 0 lens).get ⟨i * lens.length / reserved, h⟩ := by
  have hslot : i * lens.length / reserved < (starts 0 lens).length := by
    rw [starts_length]
    exact spread_lt_of_lt (by omega) hi
  refine ⟨hslot, ?_⟩
  rw [slot, List.getElem?_eq_getElem hslot]
  rfl

theorem sampled_lt {lens : List Nat} {reserved : Nat}
    (hpos : ∀ len ∈ lens, 0 < len) (hreserved : reserved ≤ lens.length) :
    ∀ p ∈ sampled lens reserved, p < lens.sum := by
  intro p hp
  obtain ⟨i, hi, rfl⟩ := List.mem_map.mp hp
  obtain ⟨hslot, heq⟩ := slot_eq (List.mem_range.mp hi) hreserved
  have hlt := lt_of_mem_starts hpos (List.get_mem (starts 0 lens) ⟨_, hslot⟩)
  rw [heq]
  omega

theorem sampled_pairwise {lens : List Nat} {reserved : Nat}
    (hpos : ∀ len ∈ lens, 0 < len) (hreserved : reserved ≤ lens.length) :
    (sampled lens reserved).Pairwise (· < ·) := by
  rw [sampled, List.pairwise_map]
  refine List.Pairwise.imp_of_mem ?_ List.pairwise_lt_range
  intro i j hi hj hij
  rw [List.mem_range] at hi hj
  obtain ⟨hsloti, heqi⟩ := slot_eq hi hreserved
  obtain ⟨hslotj, heqj⟩ := slot_eq hj hreserved
  rw [heqi, heqj]
  exact List.pairwise_iff_getElem.mp (starts_pairwise hpos 0) _ _ hsloti hslotj
    (spread_lt (by omega) hreserved hij)

theorem sampled_all (lens : List Nat) : sampled lens lens.length = starts 0 lens := by
  apply List.ext_getElem
  · simp [sampled]
  · intro i hi hi'
    have hlt : i < lens.length := by simpa using hi'
    have hquot : i * lens.length / lens.length = i :=
      Nat.mul_div_cancel i (by omega)
    simp [sampled, slot, hquot, hlt]

private theorem reserveSlot_eq {lens : List Nat} (hpos : ∀ len ∈ lens, 0 < len)
    {reserved i : Nat} (hi : i < reserved) (hreserved : reserved ≤ lens.length)
    (ps : List Nat) :
    reserveSlot (blocks 0 lens) reserved (indicator 0 lens.sum ps) i =
      some (indicator 0 lens.sum (ps ++ [slot lens reserved i])) := by
  obtain ⟨hslot, heq⟩ := slot_eq hi hreserved
  have hhead := blocks_head hpos 0 (i * lens.length / reserved)
  rw [List.getElem?_eq_getElem hslot, Option.bind_eq_some_iff] at hhead
  obtain ⟨block, hblock, hfirst⟩ := hhead
  have hlt := lt_of_mem_starts hpos (List.get_mem (starts 0 lens) ⟨_, hslot⟩)
  rw [Nat.zero_add] at hlt
  rw [heq, ← indicator_set]
  simp only [reserveSlot, blocks_length, hblock, hfirst, indicator_length,
    Option.bind_eq_bind, Option.bind_some]
  exact if_pos hlt

theorem reserveSlots_eq {lens : List Nat} (hpos : ∀ len ∈ lens, 0 < len)
    {reserved : Nat} (hreserved : reserved ≤ lens.length) :
    reserveSlots (blocks 0 lens) reserved (List.replicate lens.sum false) =
      some (indicator 0 lens.sum (sampled lens reserved)) := by
  have hloop : ∀ (slots ps : List Nat), (∀ i ∈ slots, i < reserved) →
      slots.foldlM (reserveSlot (blocks 0 lens) reserved) (indicator 0 lens.sum ps) =
        some (indicator 0 lens.sum (ps ++ slots.map (slot lens reserved))) := by
    intro slots
    induction slots with
    | nil => simp
    | cons i slots ih =>
        intro ps hslots
        rw [List.foldlM_cons, reserveSlot_eq hpos (hslots i (by simp)) hreserved]
        have hrest := ih (ps ++ [slot lens reserved i]) fun j hj =>
          hslots j (by simp [hj])
        simpa using hrest
  have h := hloop (List.range reserved) [] fun i hi => List.mem_range.mp hi
  rwa [indicator_nil] at h

/-! ## Filling up -/

theorem fillSlots_of_le {budget count : Int} (h : budget ≤ count) (flags : List Bool) :
    fillSlots budget count flags = flags := by
  cases flags with
  | nil => rfl
  | cons flag flags => rw [fillSlots, if_pos h]

theorem fillSlots_eq (budget count : Int) (flags : List Bool) :
    ∃ m ≤ flags.length, fillSlots budget count flags =
      List.replicate m true ++ flags.drop m := by
  induction flags generalizing count with
  | nil => exact ⟨0, by simp, rfl⟩
  | cons flag flags ih =>
      rw [fillSlots]
      split
      · exact ⟨0, by simp, rfl⟩
      · have hturn : ∀ count, ∃ m ≤ (flag :: flags).length,
            true :: fillSlots budget count flags =
              List.replicate m true ++ (flag :: flags).drop m := by
          intro count
          obtain ⟨m, hm, hfill⟩ := ih count
          exact ⟨m + 1, by simpa using hm, by simp [hfill, List.replicate_succ]⟩
        split
        · exact hturn count
        · exact hturn (count + 1)

theorem fillSlots_count_eq (budget count : Int) (flags : List Bool)
    (h : count ≤ budget) :
    ((fillSlots budget count flags).count true : Int) =
      flags.count true + min (flags.count false : Int) (budget - count) := by
  induction flags generalizing count with
  | nil =>
      simp [fillSlots]
      omega
  | cons flag flags ih =>
      rw [fillSlots]
      split
      · have hzero : budget - count = 0 := by omega
        rw [hzero]
        simp
      · cases flag with
        | true =>
            have := ih count h
            simp
            omega
        | false =>
            have := ih (count + 1) (by omega)
            simp
            omega

theorem fillSlots_take {budget count : Int} (h : count ≤ budget) (flags : List Bool) (n : Nat) :
    (∀ flag ∈ (fillSlots budget count flags).take n, flag = true) ↔
      ((flags.take n).count false : Int) ≤ budget - count := by
  induction flags generalizing count n with
  | nil =>
      simp [fillSlots]
      omega
  | cons flag flags ih =>
      cases n with
      | zero =>
          simp
          omega
      | succ n =>
          rw [fillSlots]
          split
          · have hzero : budget - count = 0 := by omega
            have hcount : (((flag :: flags).take (n + 1)).count false : Int) ≤ 0 ↔
                false ∉ (flag :: flags).take (n + 1) := by
              rw [← List.count_eq_zero]
              omega
            rw [hzero, hcount]
            constructor
            · intro hall hfalse
              exact Bool.noConfusion (hall false hfalse)
            · intro hnot flag' hmem
              cases flag' with
              | false => exact absurd hmem hnot
              | true => rfl
          · cases flag with
            | true => simpa using ih h n
            | false =>
                have hrest := ih (show count + 1 ≤ budget by omega) n
                rw [if_neg (by decide), List.take_succ_cons, List.take_succ_cons,
                  List.forall_mem_cons, List.count_cons_self, hrest, and_iff_right rfl]
                omega

theorem sampleClusters_fill (peers : List PeerInfo) (budget : Int) :
    sampleClusters (findRTTClusters peers) budget peers.length = some (fillSlots budget
      (min budget (rttClusters peers).length).toNat (indicator 0 peers.length
        (sampled (clusterLengths peers) (min budget (rttClusters peers).length).toNat))) := by
  have hmin : (if budget > (findRTTClusters peers).length then
      ((findRTTClusters peers).length : Int) else budget) =
      min budget (rttClusters peers).length := by
    rw [findRTTClusters_length]
    split <;> omega
  have hslots := reserveSlots_eq (clusterLengths_pos peers)
    (show (min budget (rttClusters peers).length).toNat ≤ (clusterLengths peers).length by
      rw [clusterLengths_length]
      omega)
  rw [← findRTTClusters_eq, clusterLengths_sum] at hslots
  unfold sampleClusters
  simp only [hmin, hslots]
  rfl

/--
The slots sampled from the clusters of a list: the first peer of each sampled
cluster and the first peers of the list, as many as the budget and the list allow.
-/
theorem sampleClusters_eq (peers : List PeerInfo) {budget : Int} (hbudget : 0 ≤ budget) :
    ∃ m flags, sampleClusters (findRTTClusters peers) budget peers.length = some flags ∧
      m ≤ peers.length ∧
      flags = List.replicate m true ++ (indicator 0 peers.length
        (sampled (clusterLengths peers) (min budget (rttClusters peers).length).toNat)).drop m ∧
      (flags.count true : Int) = min budget peers.length := by
  have hpos := clusterLengths_pos peers
  have hlen := clusterLengths_length peers
  have hsample := sampleClusters_fill peers budget
  generalize hr : min budget ((rttClusters peers).length : Int) = r at hsample ⊢
  have hreserved : r.toNat ≤ (clusterLengths peers).length := by omega
  have hcount : (indicator 0 peers.length (sampled (clusterLengths peers) r.toNat)).count
      true = r.toNat := by
    rw [indicator_count]
    · simp [sampled]
    · exact (sampled_pairwise hpos hreserved).imp (fun h => Nat.ne_of_lt h)
    · rw [← clusterLengths_sum]
      exact sampled_lt hpos hreserved
  obtain ⟨m, hm, hfill⟩ := fillSlots_eq budget r.toNat
    (indicator 0 peers.length (sampled (clusterLengths peers) r.toNat))
  refine ⟨m, _, hsample, by simpa using hm, hfill, ?_⟩
  have hfilled := fillSlots_count_eq budget r.toNat
    (indicator 0 peers.length (sampled (clusterLengths peers) r.toNat)) (by omega)
  have htotal := List.count_true_add_count_false
    (indicator 0 peers.length (sampled (clusterLengths peers) r.toNat))
  rw [indicator_length] at htotal
  omega

theorem sampleClusters_of_neg (peers : List PeerInfo) {budget : Int} (hneg : budget < 0) :
    sampleClusters (findRTTClusters peers) budget peers.length =
      some (List.replicate peers.length false) := by
  rw [sampleClusters_fill, Int.toNat_of_nonpos (by omega), fillSlots_of_le (by omega)]
  simp [sampled, indicator_nil]

/-! ## The eager cap -/

private theorem sampleClusters_count {peers : List PeerInfo} {budget : Int}
    {flags : List Bool} (hbudget : 0 ≤ budget)
    (h : sampleClusters (findRTTClusters peers) budget peers.length = some flags) :
    (flags.count true : Int) ≤ budget := by
  obtain ⟨m, marked, hsample, -, -, hcount⟩ := sampleClusters_eq peers hbudget
  rw [h] at hsample
  cases hsample
  omega

private theorem clampGap_le {cfg : OverlayConfig} (hmax : 0 ≤ cfg.maxEagerPeers)
    (n gapIdx : Int) : clampGap cfg n gapIdx ≤ cfg.maxEagerPeers := by
  unfold clampGap
  dsimp only
  grind

theorem selectEager_count {cfg : OverlayConfig} {peers : List PeerInfo}
    {flags : List Bool} (hmax : 0 ≤ cfg.maxEagerPeers)
    (h : selectEager cfg peers = some flags) :
    (flags.count true : Int) ≤ cfg.maxEagerPeers := by
  unfold selectEager at h
  dsimp only at h
  split at h
  · simp only [Option.bind_eq_bind, Option.bind_eq_some_iff] at h
    obtain ⟨gapIdx, -, hflags⟩ := h
    split at hflags
    · cases hflags
      have := clampGap_le hmax peers.length gapIdx
      simp [List.count_append, List.count_replicate]
      omega
    · cases hflags
  · have := sampleClusters_count (by grind) h
    grind

theorem flagged_length_le {α : Type} (value : Bool) (xs : List α)
    (flags : List Bool) :
    (flagged value xs flags).length ≤ flags.count value := by
  induction xs generalizing flags with
  | nil => simp [flagged]
  | cons x xs ih =>
      cases flags with
      | nil => simp [flagged]
      | cons flag flags =>
          have := ih flags
          simp only [flagged, List.zip_cons_cons, List.filter_cons,
            List.count_cons] at this ⊢
          split <;> simp_all

namespace Overlay

def Capped (o : Overlay) : Prop :=
  (o.eagerPeers.length : Int) ≤ o.cfg.maxEagerPeers

theorem reclassify_eq_some {o o' : Overlay} {sorter : SortSlice}
    {peers : List PeerInfo} (h : o.reclassify sorter peers = some o') :
    o' = { o with eagerPeers := [], lazyPeers := [] } ∨
    ∃ kept isEager,
      capPeers o.cfg (sorter.sort (peers.filter fun p => p.nodeID ≠ o.self)) = some kept ∧
      selectEager o.cfg kept = some isEager ∧
      o' = { o with
        eagerPeers := (flagged true kept isEager).map (classify true)
        lazyPeers := (flagged false kept isEager).map (classify false) } := by
  unfold reclassify at h
  dsimp only at h
  split at h
  · cases h
    exact .inl rfl
  · simp only [Option.bind_eq_bind, Option.bind_eq_some_iff,
      Option.some.injEq] at h
    obtain ⟨kept, hkept, isEager, hselect, rfl⟩ := h
    exact .inr ⟨kept, isEager, hkept, hselect, rfl⟩

theorem reclassify_cfg {o o' : Overlay} {sorter : SortSlice}
    {peers : List PeerInfo} (h : o.reclassify sorter peers = some o') :
    o'.cfg = o.cfg := by
  rcases reclassify_eq_some h with rfl | ⟨kept, isEager, -, -, rfl⟩ <;> rfl

theorem reclassify_capped {o o' : Overlay} {sorter : SortSlice}
    {peers : List PeerInfo} (hmax : 0 ≤ o.cfg.maxEagerPeers)
    (h : o.reclassify sorter peers = some o') : o'.Capped := by
  rcases reclassify_eq_some h with rfl | ⟨kept, isEager, -, hselect, rfl⟩
  · exact hmax
  · have hcount := selectEager_count hmax hselect
    have hlen := flagged_length_le true kept isEager
    change (((flagged true kept isEager).map (classify true)).length : Int) ≤
      o.cfg.maxEagerPeers
    rw [List.length_map]
    omega

end Overlay

end GossipMesh
