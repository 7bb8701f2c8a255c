import GossipMesh.Overlay.FanOut

/-!
# Nearest peers first

Both passes of `Reclassify`, the cap and the choice of eager peers, mark an
initial part of a sorted list and besides it only first peers of clusters.  A
peer that is marked and not the first of its cluster is therefore in front of
every peer that is not marked, and it stays so through both passes.
-/

namespace GossipMesh

open GossipMesh.Foundation

/-- The index is that of the first peer of a cluster. -/
def Representative (peers : List PeerInfo) (i : Nat) : Prop :=
  i ∈ starts 0 (clusterLengths peers)

theorem representative_succ {peers : List PeerInfo} {i : Nat} :
    Representative peers (i + 1) ↔
      ∃ p q, peers[i]? = some p ∧ peers[i + 1]? = some q ∧ near p q = false :=
  succ_mem_starts_splitBy

theorem representative_zero {peers : List PeerInfo} (h : peers ≠ []) :
    Representative peers 0 := by
  unfold Representative
  cases hlens : clusterLengths peers with
  | nil =>
      have hsum := clusterLengths_sum peers
      rw [hlens] at hsum
      exact absurd (List.length_eq_zero_iff.mp hsum.symm) h
  | cons len lens => simp [starts]

/-! ## Marks -/

/-- Marked are an initial part of the list and first peers of clusters, the very first if any. -/
structure Nearest (peers : List PeerInfo) (flags : List Bool) : Prop where
  length : flags.length = peers.length
  marked : ∃ m, (∀ i < m, i < peers.length → flags[i]? = some true) ∧
    ∀ i, flags[i]? = some true → i < m ∨ Representative peers i
  first : true ∈ flags → flags[0]? = some true

theorem getElem?_fill {n : Nat} (m : Nat) (ps : List Nat) {i : Nat} (hi : i < n) :
    (List.replicate m true ++ (indicator 0 n ps).drop m)[i]? =
      some (decide (i < m) || ps.contains i) := by
  by_cases him : i < m
  · rw [List.getElem?_append_left (by simpa using him)]
    simp [him]
  · rw [List.getElem?_append_right (by simpa using him), List.length_replicate,
      List.getElem?_drop, Nat.add_sub_cancel' (not_lt.mp him)]
    simp [indicator, hi, him]

theorem nearest_fill {peers : List PeerInfo} {m : Nat} (hm : m ≤ peers.length) (ps : List Nat)
    (hps : ∀ p ∈ ps, Representative peers p) (hfirst : ps ≠ [] → 0 ∈ ps) :
    Nearest peers (List.replicate m true ++ (indicator 0 peers.length ps).drop m) where
  length := by simp [hm]
  marked := by
    refine ⟨m, ?_, ?_⟩
    · intro i him hi
      simp [getElem?_fill m ps hi, him]
    · intro i hmarked
      have hi : i < peers.length := by
        by_contra hout
        rw [List.getElem?_eq_none (by simp; omega)] at hmarked
        cases hmarked
      rw [getElem?_fill m ps hi] at hmarked
      simp only [Option.some.injEq, Bool.or_eq_true, decide_eq_true_eq,
        List.contains_iff_mem] at hmarked
      exact hmarked.imp_right (hps i)
  first := by
    intro hmem
    obtain ⟨i, hi⟩ := List.mem_iff_getElem?.mp hmem
    have hlt : i < peers.length := by
      by_contra hout
      rw [List.getElem?_eq_none (by simp; omega)] at hi
      cases hi
    rw [getElem?_fill m ps hlt] at hi
    rw [getElem?_fill m ps (by omega)]
    simp only [Option.some.injEq, Bool.or_eq_true, decide_eq_true_eq,
      List.contains_iff_mem] at hi ⊢
    rcases hi with him | hps'
    · exact .inl (by omega)
    · exact .inr (hfirst (List.ne_nil_of_mem hps'))

theorem nearest_replicate (peers : List PeerInfo) {m : Nat} (hm : m ≤ peers.length) :
    Nearest peers (List.replicate m true ++ List.replicate (peers.length - m) false) := by
  have hfill := nearest_fill hm [] (by simp) (by simp)
  rwa [indicator_nil, List.drop_replicate] at hfill

private theorem sampled_representative {peers : List PeerInfo} {r : Nat}
    (hrk : r ≤ (clusterLengths peers).length) :
    ∀ p ∈ sampled (clusterLengths peers) r, Representative peers p := by
  intro p hp
  obtain ⟨i, hi, rfl⟩ := List.mem_map.mp hp
  obtain ⟨hslot, heq⟩ := slot_eq (List.mem_range.mp hi) hrk
  rw [heq]
  exact List.get_mem _ _

private theorem zero_mem_sampled {lens : List Nat} {r : Nat} (h : sampled lens r ≠ []) :
    0 ∈ sampled lens r := by
  have hr : 0 < r := by
    by_contra hzero
    rw [Nat.eq_zero_of_not_pos hzero] at h
    exact h rfl
  refine List.mem_map.mpr ⟨0, List.mem_range.mpr hr, ?_⟩
  cases lens <;> simp [slot, starts]

theorem sampleClusters_nearest (peers : List PeerInfo) (budget : Int) :
    ∃ flags, sampleClusters (findRTTClusters peers) budget peers.length = some flags ∧
      Nearest peers flags := by
  rcases lt_or_ge budget 0 with hneg | hbudget
  · refine ⟨_, sampleClusters_of_neg peers hneg, ?_⟩
    simpa using nearest_replicate peers (Nat.zero_le _)
  · obtain ⟨m, flags, hsample, hm, rfl, -⟩ := sampleClusters_eq peers hbudget
    have hlens := clusterLengths_length peers
    exact ⟨_, hsample, nearest_fill hm _ (sampled_representative (by omega)) zero_mem_sampled⟩

theorem capPeers_nearest {cfg : OverlayConfig} {peers kept : List PeerInfo}
    (h : capPeers cfg peers = some kept) :
    ∃ selected, Nearest peers selected ∧ kept = flagged true peers selected := by
  unfold capPeers at h
  dsimp only at h
  split at h
  · unfold selectDiversePeers at h
    dsimp only at h
    split at h
    · split at h
      · next hrange =>
          cases h
          have hm : (goInt (cfg.maxEagerPeers + cfg.maxLazyPeers)).toNat ≤ peers.length := by
            omega
          exact ⟨_, nearest_replicate peers hm,
            (flagged_take (by omega)).symm⟩
      · cases h
    · obtain ⟨flags, hsample, hnearest⟩ := sampleClusters_nearest peers
        (goInt (cfg.maxEagerPeers + cfg.maxLazyPeers))
      rw [hsample] at h
      cases h
      exact ⟨flags, hnearest, rfl⟩
  · cases h
    refine ⟨_, nearest_replicate peers (le_refl _), ?_⟩
    rw [flagged_take (by omega), List.take_length]

theorem selectEager_nearest {cfg : OverlayConfig} (hcfg : cfg.Positive) {peers : List PeerInfo}
    {flags : List Bool} (h : selectEager cfg peers = some flags) : Nearest peers flags := by
  by_cases hone : (rttClusters peers).length ≤ 1
  · have hbounds := clampGap_bounds hcfg (Int.natCast_nonneg peers.length) (gapIndex cfg peers)
    rw [selectEager_single hcfg hone] at h
    cases h
    have hrest : ((peers.length : Int) - clampGap cfg peers.length (gapIndex cfg peers)).toNat =
        peers.length - (clampGap cfg peers.length (gapIndex cfg peers)).toNat := by
      omega
    rw [hrest]
    exact nearest_replicate peers (by omega)
  · obtain ⟨flags', hsample, hnearest⟩ := sampleClusters_nearest peers
      (eagerBudget cfg peers.length)
    rw [selectEager_multiple hone, hsample] at h
    cases h
    exact hnearest

/-! ## Both passes -/

inductive Fate where
  | eager
  | lazy
  | dropped
  deriving DecidableEq

def placed {α : Type} (fate : Fate) (xs : List α) (fates : List Fate) : List α :=
  ((xs.zip fates).filter fun x => x.2 = fate).map Prod.fst

def keptFate (isEager : Bool) : Fate :=
  if isEager then .eager else .lazy

/-- The fates under the flags of the cap and, for the peers it keeps, those of the choice. -/
def fates : List Bool → List Bool → List Fate
  | [], _ => []
  | false :: selected, flags => .dropped :: fates selected flags
  | true :: selected, isEager :: flags => keptFate isEager :: fates selected flags
  | true :: selected, [] => .dropped :: fates selected []

theorem fates_length (selected flags : List Bool) :
    (fates selected flags).length = selected.length := by
  fun_induction fates selected flags <;> simp_all

theorem placed_fates {α : Type} (isEager : Bool) (xs : List α) (selected flags : List Bool)
    (hlen : selected.length = xs.length) (hflags : flags.length = selected.count true) :
    placed (keptFate isEager) xs (fates selected flags) =
      flagged isEager (flagged true xs selected) flags := by
  induction xs generalizing selected flags with
  | nil => simp [placed, flagged]
  | cons x xs ih =>
      rcases selected with _ | ⟨_ | _, selected⟩
      · simp at hlen
      · have hrest := ih selected flags (by simpa using hlen) (by simpa using hflags)
        have hother : Fate.dropped ≠ keptFate isEager := by cases isEager <;> decide
        rw [flagged_cons, if_neg (by decide), ← hrest, fates]
        simp [placed, hother]
      · rcases flags with _ | ⟨flag, flags⟩
        · simp at hflags
        · have hrest := ih selected flags (by simpa using hlen) (by simpa using hflags)
          rw [flagged_cons, if_pos rfl, flagged_cons, fates, ← hrest]
          cases flag <;> cases isEager <;> simp [placed, keptFate]

theorem getElem?_fates {selected flags : List Bool} (hflags : flags.length = selected.count true)
    (i : Nat) :
    (fates selected flags)[i]? = selected[i]?.map fun kept =>
      if kept then (flags[(selected.take i).count true]?.map keptFate).getD .dropped
      else .dropped := by
  induction selected generalizing flags i with
  | nil => simp [fates]
  | cons kept selected ih =>
      cases kept with
      | false =>
          rw [fates]
          cases i with
          | zero => simp
          | succ i => simpa using ih (by simpa using hflags) i
      | true =>
          rcases flags with _ | ⟨flag, flags⟩
          · simp at hflags
          · rw [fates]
            cases i with
            | zero => simp
            | succ i => simpa using ih (by simpa using hflags) i

theorem rank_le (selected : List Bool) (i : Nat) : (selected.take i).count true ≤ i :=
  List.count_le_length.trans (by simp)

theorem rank_eq {selected : List Bool} {m i : Nat} (him : i ≤ m) (hi : i ≤ selected.length)
    (hmarked : ∀ j < m, j < selected.length → selected[j]? = some true) :
    (selected.take i).count true = i := by
  have hall : selected.take i = List.replicate i true := by
    apply List.ext_getElem?
    intro j
    by_cases hj : j < i
    · simp [hj, hmarked j (by omega) (by omega)]
    · simp [hj]
  rw [hall, List.count_replicate_self]

private theorem getElem?_flagged {α : Type} {xs : List α} {flags : List Bool}
    (hlen : flags.length = xs.length) {i : Nat} (hi : flags[i]? = some true) :
    (flagged true xs flags)[(flags.take i).count true]? = xs[i]? := by
  induction xs generalizing flags i with
  | nil =>
      rw [List.length_eq_zero_iff.mp hlen] at hi
      simp at hi
  | cons x xs ih =>
      rcases flags with _ | ⟨flag, flags⟩
      · simp at hlen
      · cases i with
        | zero =>
            rw [List.getElem?_cons_zero, Option.some.injEq] at hi
            simp [flagged_cons, hi]
        | succ i =>
            have hrest := ih (by simpa using hlen) (by simpa using hi)
            cases flag <;> simpa [flagged_cons] using hrest

section Passes

variable {peers kept : List PeerInfo} {selected flags : List Bool}

private theorem representative_kept (hselected : selected.length = peers.length) {m i : Nat}
    (hmarked : ∀ j < m, j < peers.length → selected[j]? = some true)
    (hkept : kept = flagged true peers selected) (him : i < m) (hi : i < peers.length)
    (hrep : Representative kept i) : Representative peers i := by
  have hsame : ∀ j ≤ i, kept[j]? = peers[j]? := by
    intro j hj
    have hflag := hmarked j (by omega) (by omega)
    have hrank := rank_eq (m := m) (by omega : j ≤ m) (by omega)
      (fun k hk hlt => hmarked k hk (by omega))
    have hget := getElem?_flagged hselected hflag
    rwa [hrank, ← hkept] at hget
  cases i with
  | zero =>
      apply representative_zero
      intro hnil
      simp [hnil] at hi
  | succ i =>
      obtain ⟨p, q, hp, hq, hfar⟩ := representative_succ.mp hrep
      rw [hsame i (by omega)] at hp
      rw [hsame (i + 1) (by omega)] at hq
      exact representative_succ.mpr ⟨p, q, hp, hq, hfar⟩

theorem fates_kept {i : Nat} (hflags : flags.length = selected.count true) (value : Bool)
    (h : (fates selected flags)[i]? = some (keptFate value)) :
    selected[i]? = some true ∧ flags[(selected.take i).count true]? = some value := by
  rw [getElem?_fates hflags, Option.map_eq_some_iff] at h
  obtain ⟨kept, hsel, hfate⟩ := h
  cases kept with
  | false => cases value <;> cases hfate
  | true =>
      refine ⟨hsel, ?_⟩
      rcases hflag : flags[(selected.take i).count true]? with _ | flag
      · rw [hflag] at hfate
        cases value <;> cases hfate
      · rw [hflag] at hfate
        cases value <;> cases flag <;> first | rfl | cases hfate

theorem eager_before_lazy (hcap : Nearest peers selected)
    (hkept : kept = flagged true peers selected) (hchoice : Nearest kept flags) {i j : Nat}
    (hi : (fates selected flags)[i]? = some .eager) (hrep : ¬ Representative peers i)
    (hj : (fates selected flags)[j]? = some .lazy) : i < j := by
  have hlen : flags.length = selected.count true := by
    rw [hchoice.length, hkept, flagged_length hcap.length]
  obtain ⟨m, hall, honly⟩ := hcap.marked
  obtain ⟨m', hall', honly'⟩ := hchoice.marked
  obtain ⟨hseli, hflagi⟩ := fates_kept hlen true hi
  obtain ⟨hselj, hflagj⟩ := fates_kept hlen false hj
  have him : i < m := (honly i hseli).resolve_right hrep
  have hlt : i < peers.length := by
    rw [← hcap.length]
    exact (List.getElem?_eq_some_iff.mp hseli).1
  have hrank := rank_eq (le_of_lt him) (by rw [hcap.length]; omega) fun k hk hk' =>
    hall k hk (by rwa [hcap.length] at hk')
  rw [hrank] at hflagi
  have him' : i < m' := (honly' i hflagi).resolve_right fun hrep' =>
    hrep (representative_kept hcap.length hall hkept him hlt hrep')
  have hrankj : m' ≤ (selected.take j).count true := by
    by_contra hbelow
    have hbound := (List.getElem?_eq_some_iff.mp hflagj).1
    rw [hchoice.length] at hbound
    rw [hall' _ (by omega) hbound] at hflagj
    cases hflagj
  have := rank_le selected j
  omega

private theorem retained_before_dropped (hcap : Nearest peers selected)
    (hlen : flags.length = selected.count true) {i j : Nat} (value : Bool)
    (hi : (fates selected flags)[i]? = some (keptFate value)) (hrep : ¬ Representative peers i)
    (hj : (fates selected flags)[j]? = some .dropped) : i < j := by
  obtain ⟨m, hall, honly⟩ := hcap.marked
  obtain ⟨hseli, -⟩ := fates_kept hlen value hi
  have him : i < m := (honly i hseli).resolve_right hrep
  by_contra hle
  have hselj := hall j (by omega) (by
    rw [← hcap.length, ← fates_length selected flags]
    exact (List.getElem?_eq_some_iff.mp hj).1)
  have hbound : (selected.take j).count true < flags.length := by
    rw [hlen]
    calc (selected.take j).count true < (selected.take (j + 1)).count true := by
          rw [List.take_add_one, hselj]
          simp
      _ ≤ selected.count true := (List.take_sublist _ _).count_le _
  rw [getElem?_fates hlen, hselj, List.getElem?_eq_getElem hbound] at hj
  cases hflag : flags[(selected.take j).count true] <;> simp [hflag, keptFate] at hj

private theorem first_eager (hcap : Nearest peers selected)
    (hkept : kept = flagged true peers selected) (hchoice : Nearest kept flags)
    (h : Fate.eager ∈ fates selected flags) : (fates selected flags)[0]? = some .eager := by
  have hlen : flags.length = selected.count true := by
    rw [hchoice.length, hkept, flagged_length hcap.length]
  obtain ⟨i, hi⟩ := List.mem_iff_getElem?.mp h
  obtain ⟨hsel, hflag⟩ := fates_kept hlen true hi
  rw [getElem?_fates hlen, hcap.first (List.mem_of_getElem? hsel), List.take_zero,
    List.count_nil, hchoice.first (List.mem_of_getElem? hflag)]
  rfl

end Passes

namespace Overlay

/--
Some peers are chosen as first of their clusters.  Apart from these, no eager
peer is farther than a lazy one and no retained peer farther than a dropped one;
and if there is an eager peer at all, the nearest peer is one.
-/
theorem reclassify_nearest (cfg : OverlayConfig) (o : Overlay)
    (hcfg : o.cfg = cfg.withDefaults) (sorter : SortSlice) (peers : List PeerInfo) :
    (o.cfg.maxEagerPeers + o.cfg.maxLazyPeers < 2 ^ 63 →
      ∃ o', o.reclassify sorter peers = some o') ∧
    ∀ o', o.reclassify sorter peers = some o' →
      ∃ fates : List Fate, fates.length = (sorter.sort (o.others peers)).length ∧
        o'.eagerPeers =
          (placed .eager (sorter.sort (o.others peers)) fates).map (classify true) ∧
        o'.lazyPeers =
          (placed .lazy (sorter.sort (o.others peers)) fates).map (classify false) ∧
        (∀ (i j : Nat) (p q : PeerInfo), (sorter.sort (o.others peers))[i]? = some p →
          (sorter.sort (o.others peers))[j]? = some q →
          ¬ Representative (sorter.sort (o.others peers)) i →
          (fates[i]? = some .eager → fates[j]? = some .lazy → p.rtt ≤ q.rtt) ∧
          (fates[i]? = some .eager ∨ fates[i]? = some .lazy → fates[j]? = some .dropped →
            p.rtt ≤ q.rtt)) ∧
        (.eager ∈ fates → fates[0]? = some .eager) := by
  have hpos : o.cfg.Positive := hcfg ▸ cfg.withDefaults_positive
  constructor
  · intro hsum
    obtain ⟨-, o', -, hreclassify, -⟩ := reclassify_counts hpos hsum sorter peers
    exact ⟨o', hreclassify⟩
  · intro o' h
    by_cases hnone : o.others peers = []
    · rw [reclassify_alone sorter hnone] at h
      cases h
      have hempty : sorter.sort (o.others peers) = [] := by
        rw [hnone]
        exact List.perm_nil.mp (sorter.perm [])
      rw [hempty]
      exact ⟨[], rfl, by simp [placed], by simp [placed], by simp, by simp⟩
    · rw [reclassify_others sorter hnone] at h
      obtain ⟨kept, hcap, h⟩ := Option.bind_eq_some_iff.mp h
      obtain ⟨flags, hchoice, h⟩ := Option.bind_eq_some_iff.mp h
      cases h
      obtain ⟨selected, hselected, hkept⟩ := capPeers_nearest hcap
      have hflags := selectEager_nearest hpos hchoice
      have hlen : flags.length = selected.count true := by
        rw [hflags.length, hkept, flagged_length hselected.length]
      have hordered : ∀ {i j : Nat} {p q : PeerInfo}, i < j →
          (sorter.sort (o.others peers))[i]? = some p →
          (sorter.sort (o.others peers))[j]? = some q → p.rtt ≤ q.rtt := by
        intro i j p q hij hp hq
        obtain ⟨hi, rfl⟩ := List.getElem?_eq_some_iff.mp hp
        obtain ⟨hj, rfl⟩ := List.getElem?_eq_some_iff.mp hq
        exact List.pairwise_iff_getElem.mp (sorter.sorted _) i j hi hj hij
      refine ⟨fates selected flags, by rw [fates_length, hselected.length], ?_, ?_, ?_,
        first_eager hselected hkept hflags⟩
      · rw [hkept, ← placed_fates true _ selected flags hselected.length hlen]
        rfl
      · rw [hkept, ← placed_fates false _ selected flags hselected.length hlen]
        rfl
      · intro i j p q hp hq hrep
        constructor
        · intro hi hj
          exact hordered (eager_before_lazy hselected hkept hflags hi hrep hj) hp hq
        · rintro (hi | hi) hj
          · exact hordered (retained_before_dropped hselected hlen true hi hrep hj) hp hq
          · exact hordered (retained_before_dropped hselected hlen false hi hrep hj) hp hq

theorem reclassify_nearest_fourRegions :
    (new "a" ⟨0, 1, 0, 2⟩).cfg = OverlayConfig.withDefaults ⟨0, 1, 0, 2⟩ ∧ (1 : Int) + 2 < 2 ^ 63 ∧
    ∃ o', (new "a" ⟨0, 1, 0, 2⟩).reclassify .insertion fourRegions = some o' ∧
      ∃ fates : List Fate, fates.length = 4 ∧
        o'.eagerPeers = (placed .eager fourRegions fates).map (classify true) ∧
        (.eager ∈ fates → fates[0]? = some .eager) := by
  refine ⟨rfl, by decide, ?_⟩
  obtain ⟨hreturns, hall⟩ := reclassify_nearest ⟨0, 1, 0, 2⟩ (new "a" ⟨0, 1, 0, 2⟩) rfl
    .insertion fourRegions
  obtain ⟨o', ho'⟩ := hreturns (by decide)
  obtain ⟨fates, hlen, heager, -, -, hfirst⟩ := hall o' ho'
  exact ⟨o', ho', fates, hlen, heager, hfirst⟩

end Overlay

end GossipMesh
