import GossipMesh.Overlay.Nearest

/-!
# The peers repair asks

`RandomPeers` takes the first of the eager and then of the lazy peers.  They are
the nearest ones exactly as long as the far first peers of clusters, which the
eager list ends with, do not come before a lazy peer that is nearer.
-/

namespace GossipMesh

open GossipMesh.Foundation

/-! ## Marks among the first -/

/-- The first `n` are all marked, or all marked ones are among them. -/
def Front (n : Nat) (flags : List Bool) : Prop :=
  (∀ flag ∈ flags.take n, flag = true) ∨ ∀ flag ∈ flags.drop n, flag = false

theorem front_fill {budget : Int} {total r n : Nat} (hr : (r : Int) ≤ budget) {ps : List Nat}
    (hnodup : ps.Nodup) (hlt : ∀ p ∈ ps, p < total) :
    Front n (fillSlots budget r (indicator 0 total ps)) ↔
      (∀ p ∈ ps, p < n) ∨ (n : Int) ≤ budget - r + ps.countP (fun p => p < n) := by
  obtain ⟨m, hm, hfill⟩ := fillSlots_eq budget r (indicator 0 total ps)
  rw [indicator_length] at hm
  rcases Nat.lt_or_ge total n with hbig | hn
  · refine iff_of_true (.inr ?_) (.inl fun p hp => (hlt p hp).trans hbig)
    rw [hfill, List.drop_eq_nil_of_le (by simp; omega)]
    simp
  · have hcount := indicator_take_count hn hnodup
    have hget := fun i (hi : i < total) => getElem?_fill m ps hi
    rw [← hfill] at hget
    have htake : (∀ flag ∈ (fillSlots budget r (indicator 0 total ps)).take n, flag = true) ↔
        (n : Int) ≤ budget - r + ps.countP (fun p => p < n) := by
      rw [fillSlots_take hr]
      omega
    constructor
    · rintro (hall | hnone)
      · exact .inr (htake.mp hall)
      · left
        intro p hp
        by_contra hge
        have hmarked := hget p (hlt p hp)
        have hmem : true ∈ (fillSlots budget r (indicator 0 total ps)).drop n := by
          apply List.mem_of_getElem? (i := p - n)
          rw [List.getElem?_drop, Nat.add_sub_cancel' (by omega), hmarked]
          simp [hp]
        exact Bool.noConfusion (hnone true hmem)
    · rintro (hall | hle)
      · by_cases hfront : n ≤ m
        · left
          intro flag hflag
          rw [hfill, List.take_append_of_le_length (by simpa using hfront)] at hflag
          exact List.eq_of_mem_replicate (List.mem_of_mem_take hflag)
        · right
          intro flag hflag
          obtain ⟨i, hi⟩ := List.mem_iff_getElem?.mp hflag
          rw [List.getElem?_drop] at hi
          have hbound : n + i < total := by
            have := (List.getElem?_eq_some_iff.mp hi).1
            rw [hfill] at this
            simp at this
            omega
          have hnot : n + i ∉ ps := fun hmem => by
            have := hall _ hmem
            omega
          rw [hget _ hbound] at hi
          simp [hnot] at hi
          rw [← hi]
          simp
          omega
      · exact .inl (htake.mpr hle)

theorem exists_rest_iff {α : Type} {xs : List α} {n : Nat} {le : α → α → Prop} :
    (∃ rest, (xs.take n ++ rest).Perm xs ∧ ∀ p ∈ xs.take n, ∀ q ∈ rest, le p q) ↔
      ∀ p ∈ xs.take n, ∀ q ∈ xs.drop n, le p q := by
  constructor
  · rintro ⟨rest, hperm, hle⟩ p hp q hq
    have hrest : (xs.take n ++ rest).Perm (xs.take n ++ xs.drop n) := by
      rwa [List.take_append_drop]
    exact hle p hp q ((List.perm_append_left_iff _).mp hrest |>.mem_iff.mpr hq)
  · intro hle
    exact ⟨xs.drop n, by rw [List.take_append_drop], hle⟩

section First

variable {kept : List PeerInfo} {flags : List Bool} {n : Nat}

private theorem forall_take_drop_of_perm {near far : List PeerInfo}
    (hsorted : kept.Pairwise fun p q => p.rtt ≤ q.rtt) (hnear : near.Perm (kept.take n))
    (hfar : far.Perm (kept.drop n)) :
    ∀ p ∈ (near ++ far).take n, ∀ q ∈ (near ++ far).drop n, p.rtt ≤ q.rtt := by
  have hlen := hnear.length_eq
  have hlen' := hfar.length_eq
  rw [List.length_take] at hlen
  rw [List.length_drop] at hlen'
  rcases Nat.lt_or_ge kept.length n with hshort | hn
  · rw [List.drop_eq_nil_of_le (by rw [List.length_append]; omega)]
    simp
  · rw [List.take_left' (by omega), List.drop_left' (by omega)]
    rw [← List.take_append_drop n kept, List.pairwise_append] at hsorted
    intro p hp q hq
    exact hsorted.2.2 p (hnear.mem_iff.mp hp) q (hfar.mem_iff.mp hq)

private theorem Nearest.lt_of_marked (hnearest : Nearest kept flags)
    (hsorted : kept.Pairwise fun p q => p.rtt ≤ q.rtt) {i j : Nat} (hij : i < j)
    (hi : flags[i]? = some false) (hj : flags[j]? = some true) {p q : PeerInfo}
    (hp : kept[i]? = some p) (hq : kept[j]? = some q) : p.rtt < q.rtt := by
  obtain ⟨m, hall, honly⟩ := hnearest.marked
  have hrep : Representative kept j := by
    refine (honly j hj).resolve_left fun hjm => ?_
    rw [hall i (by omega) (List.getElem?_eq_some_iff.mp hp).1] at hi
    cases hi
  obtain ⟨j, rfl⟩ := Nat.exists_eq_succ_of_ne_zero (by omega : j ≠ 0)
  obtain ⟨p', q', hp', hq', hfar⟩ := representative_succ.mp hrep
  rw [Nat.succ_eq_add_one, hq', Option.some.injEq] at hq
  subst hq
  have hle : ∀ {a b : Nat} {x y : PeerInfo}, a ≤ b → kept[a]? = some x → kept[b]? = some y →
      x.rtt ≤ y.rtt := by
    intro a b x y hab hx hy
    rcases Nat.eq_or_lt_of_le hab with rfl | hlt
    · rw [hx, Option.some.injEq] at hy
      exact hy ▸ Int64.le_refl _
    · obtain ⟨ha, rfl⟩ := List.getElem?_eq_some_iff.mp hx
      obtain ⟨hb, rfl⟩ := List.getElem?_eq_some_iff.mp hy
      exact List.pairwise_iff_getElem.mp hsorted a b ha hb hlt
  have hpp' := hle (by omega : i ≤ j) hp hp'
  have hpq' := hle (by omega : j ≤ j + 1) hp' hq'
  have hne : p'.rtt ≠ q'.rtt := by
    intro heq
    rw [near, heq, Int64.sub_self] at hfar
    exact absurd hfar (by decide)
  rw [Int64.le_iff_toInt_le] at hpp' hpq'
  rw [Int64.lt_iff_toInt_lt]
  rw [← Int64.toInt_inj.ne] at hne
  omega

theorem take_nearest_iff (hnearest : Nearest kept flags)
    (hsorted : kept.Pairwise fun p q => p.rtt ≤ q.rtt) (n : Nat) :
    (∀ p ∈ (flagged true kept flags ++ flagged false kept flags).take n,
      ∀ q ∈ (flagged true kept flags ++ flagged false kept flags).drop n, p.rtt ≤ q.rtt) ↔
      Front n flags := by
  have hlen : (flags.take n).length = (kept.take n).length := by simp [hnearest.length]
  have hlen' : (flags.drop n).length = (kept.drop n).length := by simp [hnearest.length]
  have hsplit : ∀ value, flagged value kept flags =
      flagged value (kept.take n) (flags.take n) ++
        flagged value (kept.drop n) (flags.drop n) := by
    intro value
    rw [← flagged_append hlen, List.take_append_drop, List.take_append_drop]
  have hperm := flagged_perm hlen
  have hperm' := flagged_perm hlen'
  have hfalse := flagged_nil_iff false hlen
  have htrue := flagged_nil_iff true hlen'
  rw [Bool.not_false] at hfalse
  rw [Bool.not_true] at htrue
  rw [Front, ← hfalse, ← htrue, hsplit true, hsplit false]
  constructor
  · intro hnear
    by_contra hboth
    obtain ⟨hlazy, heager⟩ := not_or.mp hboth
    -- the first marked peer behind `n` is returned, the last unmarked one before is not
    obtain ⟨e, rest, hrest⟩ := List.exists_cons_of_ne_nil heager
    obtain ⟨init, l, hinit⟩ := List.eq_nil_or_concat _ |>.resolve_left hlazy
    rw [List.concat_eq_append] at hinit
    obtain ⟨j, hej, hmarked⟩ := mem_flagged (hrest ▸ List.mem_cons_self :
      e ∈ flagged true (kept.drop n) (flags.drop n))
    obtain ⟨i, hli, hunmarked⟩ := mem_flagged (hinit ▸ by simp :
      l ∈ flagged false (kept.take n) (flags.take n))
    rw [List.getElem?_drop] at hej hmarked
    have hin : i < n := by
      have := (List.getElem?_eq_some_iff.mp hli).1
      rw [List.length_take] at this
      omega
    rw [List.getElem?_take_of_lt hin] at hli hunmarked
    have hlong : n ≤ kept.length := by
      have := (List.getElem?_eq_some_iff.mp hej).1
      omega
    have hcount := hperm.length_eq
    rw [hinit, List.length_append, List.length_append, List.length_singleton, List.length_take,
      Nat.min_eq_left hlong] at hcount
    rw [hrest, hinit] at hnear
    have hle := hnear e (by
        apply List.mem_of_getElem? (i := (flagged true (kept.take n) (flags.take n)).length)
        rw [List.getElem?_take_of_lt (by omega)]
        simp) l (by
        rw [List.append_assoc init, ← List.append_assoc _ init,
          List.drop_append_of_le_length (by simp; omega)]
        simp)
    have hlt := hnearest.lt_of_marked hsorted (by omega : i < n + j) hunmarked hmarked hli hej
    exact absurd hle (Int64.not_le.mpr hlt)
  · rintro (hnil | hnil)
    · rw [hnil, List.append_nil] at hperm
      rw [hnil, List.nil_append, List.append_assoc]
      exact forall_take_drop_of_perm hsorted hperm hperm'
    · rw [hnil, List.nil_append] at hperm'
      rw [hnil, List.append_nil, ← List.append_assoc]
      exact forall_take_drop_of_perm hsorted hperm hperm'

end First

/-! ## The eager peers among the first -/

/--
The eager list of what the cap keeps does not reach beyond its first `n`
peers.  There is one cluster, or all clusters that are sampled start among them,
or those among them that are not sampled fit into the slots that are left.
-/
def FrontSampled (cfg : OverlayConfig) (kept : List PeerInfo) (n : Nat) : Prop :=
  let budget := eagerBudget cfg kept.length
  let reserved := (min budget (rttClusters kept).length).toNat
  let heads := sampled (clusterLengths kept) reserved
  OneCluster kept ∨ (∀ i ∈ heads, i < n) ∨
    (n : Int) ≤ budget - reserved + heads.countP (fun i => i < n)

instance frontSampledDecidable (cfg : OverlayConfig) (kept : List PeerInfo) (n : Nat) :
    Decidable (FrontSampled cfg kept n) :=
  inferInstanceAs (Decidable (_ ∨ _ ∨ _))

private theorem selectEager_front {cfg : OverlayConfig} (hcfg : cfg.Positive) {kept : List PeerInfo}
    {flags : List Bool} (h : selectEager cfg kept = some flags) (n : Nat) :
    Front n flags ↔ FrontSampled cfg kept n := by
  by_cases hone : (rttClusters kept).length ≤ 1
  · rw [selectEager_single hcfg hone] at h
    cases h
    refine iff_of_true ?_ (.inl ((oneCluster_iff kept).mpr hone))
    generalize (clampGap cfg kept.length (gapIndex cfg kept)).toNat = a
    rcases le_total n a with hle | hle
    · left
      intro flag hflag
      rw [List.take_append_of_le_length (by simpa using hle)] at hflag
      exact List.eq_of_mem_replicate (List.mem_of_mem_take hflag)
    · right
      intro flag hflag
      rw [List.drop_append, List.drop_eq_nil_of_le (by simpa using hle), List.nil_append] at hflag
      exact List.eq_of_mem_replicate (List.mem_of_mem_drop hflag)
  · have hmany : ¬ OneCluster kept := fun h => hone ((oneCluster_iff kept).mp h)
    have hbudget : 0 ≤ eagerBudget cfg kept.length := le_max_left _ _
    have hlens := clusterLengths_length kept
    rw [selectEager_multiple hone, sampleClusters_fill] at h
    cases h
    rw [FrontSampled, or_iff_right hmany]
    apply front_fill (by omega)
    · exact (sampled_pairwise (clusterLengths_pos kept) (by omega)).imp fun h => Nat.ne_of_lt h
    · rw [← clusterLengths_sum]
      exact sampled_lt (clusterLengths_pos kept) (by omega)

namespace Overlay

theorem randomPeers_eq (o : Overlay) (n : Nat) : o.randomPeers n = o.allPeers.take n := by
  unfold randomPeers
  split
  · next h => rw [List.take_of_length_le h]
  · rfl

/--
`RandomPeers` returns as many different peers as it can, and they are the
nearest ones exactly if the eager peers do not reach beyond the first `n`.
-/
theorem randomPeers_nearest_iff (cfg : OverlayConfig) (o : Overlay)
    (hcfg : o.cfg = cfg.withDefaults) (sorter : SortSlice) (peers : List PeerInfo) (n : Nat) :
    (∃ o', o.reclassify sorter peers = some o' ∧
      (o'.randomPeers n).length = min n o'.allPeers.length ∧
      ∃ rest, (o'.randomPeers n ++ rest).Perm o'.allPeers ∧
        ∀ p ∈ o'.randomPeers n, ∀ q ∈ rest, p.rtt ≤ q.rtt) ↔
      o.others peers = [] ∨
        ∃ kept, capPeers o.cfg (sorter.sort (o.others peers)) = some kept ∧
          FrontSampled o.cfg kept n := by
  have hpos : o.cfg.Positive := hcfg ▸ cfg.withDefaults_positive
  by_cases hnone : o.others peers = []
  · refine iff_of_true ⟨_, reclassify_alone sorter hnone, ?_, [], ?_, ?_⟩ (.inl hnone)
    · simp [randomPeers_eq, allPeers]
    · simp [randomPeers_eq, allPeers]
    · simp
  · rw [or_iff_right hnone]
    have hkept : ∀ {kept : List PeerInfo},
        capPeers o.cfg (sorter.sort (o.others peers)) = some kept →
        ∃ o', o.reclassify sorter peers = some o' ∧
          ((∀ p ∈ o'.allPeers.take n, ∀ q ∈ o'.allPeers.drop n, p.rtt ≤ q.rtt) ↔
            FrontSampled o.cfg kept n) := by
      intro kept hcap
      obtain ⟨flags, hchoice, -, hreclassify⟩ := reclassify_eq hpos sorter hcap
      obtain ⟨selected, -, hpart⟩ := capPeers_nearest hcap
      have hsorted : kept.Pairwise fun p q => p.rtt ≤ q.rtt :=
        (sorter.sorted _).sublist (hpart ▸ flagged_sublist true _ _)
      refine ⟨_, hreclassify, ?_⟩
      rw [← selectEager_front hpos hchoice,
        ← take_nearest_iff (selectEager_nearest hpos hchoice) hsorted, ← allPeers_info,
        ← List.map_take, ← List.map_drop]
      simp only [List.forall_mem_map]
      exact Iff.rfl
    constructor
    · rintro ⟨o', ho', -, hrest⟩
      rw [reclassify_others sorter hnone] at ho'
      obtain ⟨kept, hcap, -⟩ := Option.bind_eq_some_iff.mp ho'
      rw [← reclassify_others sorter hnone] at ho'
      obtain ⟨o'', ho'', hiff⟩ := hkept hcap
      rw [ho', Option.some.injEq] at ho''
      subst ho''
      rw [randomPeers_eq] at hrest
      exact ⟨kept, hcap, hiff.mp (exists_rest_iff.mp hrest)⟩
    · rintro ⟨kept, hcap, hfront⟩
      obtain ⟨o', ho', hiff⟩ := hkept hcap
      refine ⟨o', ho', ?_, ?_⟩
      · rw [randomPeers_eq, List.length_take]
      · rw [randomPeers_eq]
        exact exists_rest_iff.mpr (hiff.mpr hfront)

def threeRegions : List PeerInfo :=
  [⟨"b", "b:1", 1000000⟩, ⟨"c", "c:1", 2000000⟩, ⟨"d", "d:1", 100000000⟩,
    ⟨"e", "e:1", 200000000⟩, ⟨"f", "f:1", 201000000⟩]

theorem randomPeers_nearest_threeRegions :
    (new "a" ⟨0, 0, 0, 0⟩).cfg = OverlayConfig.withDefaults ⟨0, 0, 0, 0⟩ ∧
    ∃ o', (new "a" ⟨0, 0, 0, 0⟩).reclassify .insertion threeRegions = some o' ∧
      (o'.randomPeers 4).length = min 4 o'.allPeers.length ∧
      ∃ rest, (o'.randomPeers 4 ++ rest).Perm o'.allPeers ∧
        ∀ p ∈ o'.randomPeers 4, ∀ q ∈ rest, p.rtt ≤ q.rtt :=
  ⟨rfl, (randomPeers_nearest_iff ⟨0, 0, 0, 0⟩ (new "a" ⟨0, 0, 0, 0⟩) rfl .insertion
    threeRegions 4).mpr (.inr ⟨threeRegions, by decide, by decide⟩)⟩

/-- Three peers, the number repair asks for: one at 200 ms and not the one at 2 ms. -/
theorem threeRegions_not_nearest :
    ¬ ∃ o', (new "a" ⟨0, 0, 0, 0⟩).reclassify .insertion threeRegions = some o' ∧
      (o'.randomPeers 3).length = min 3 o'.allPeers.length ∧
      ∃ rest, (o'.randomPeers 3 ++ rest).Perm o'.allPeers ∧
        ∀ p ∈ o'.randomPeers 3, ∀ q ∈ rest, p.rtt ≤ q.rtt := by
  rintro ⟨o', ho', -, rest, hperm, hle⟩
  have hpeers : ((new "a" ⟨0, 0, 0, 0⟩).reclassify .insertion threeRegions).map allPeers =
      some [⟨"b", "b:1", 1000000, true⟩, ⟨"d", "d:1", 100000000, true⟩,
        ⟨"e", "e:1", 200000000, true⟩, ⟨"c", "c:1", 2000000, false⟩,
        ⟨"f", "f:1", 201000000, false⟩] := by
    decide
  rw [ho', Option.map_some, Option.some.injEq] at hpeers
  rw [randomPeers_eq, hpeers] at hperm hle
  have hrest : (⟨"c", "c:1", 2000000, false⟩ : OverlayPeer) ∈ rest := by
    refine (List.mem_append.mp (hperm.mem_iff.mpr (by decide))).resolve_left (by decide)
  exact absurd (hle ⟨"e", "e:1", 200000000, true⟩ (by decide) _ hrest) (by decide)

end Overlay

end GossipMesh
