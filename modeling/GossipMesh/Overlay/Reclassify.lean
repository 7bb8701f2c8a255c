import Mathlib.Algebra.Group.Nat.Defs
import Mathlib.Data.List.Sort
import Mathlib.Data.Int.Order.Basic
import Mathlib.Data.List.Count

/-!
# Classification of peers

`Reclassify` sorts the live peers by round-trip time, caps their number and
splits them into eager and lazy ones.  The list operations that can leave
their range answer `none` here, the run-time panic of the source.

Counts are Go `int`s; `goInt` wraps the sums of two configured values, the
only arithmetic on counts that can leave 64 bits.  Round-trip times are
`time.Duration`, so their differences wrap by themselves.
-/

namespace GossipMesh

def goInt (x : Int) : Int := x.bmod (2 ^ 64)

def rttGapThreshold : Int64 := 5000000

structure OverlayConfig where
  minEagerPeers : Int
  maxEagerPeers : Int
  minLazyPeers : Int
  maxLazyPeers : Int

def orDefault (value default : Int) : Int :=
  if value ≤ 0 then default else value

def OverlayConfig.withDefaults (c : OverlayConfig) : OverlayConfig where
  minEagerPeers := orDefault c.minEagerPeers 4
  maxEagerPeers := orDefault c.maxEagerPeers 8
  minLazyPeers := orDefault c.minLazyPeers 2
  maxLazyPeers := orDefault c.maxLazyPeers 6

structure PeerInfo where
  nodeID : String
  addr : String
  rtt : Int64
  deriving DecidableEq

structure OverlayPeer where
  nodeID : String
  addr : String
  rtt : Int64
  isEager : Bool
  deriving DecidableEq

structure Overlay where
  cfg : OverlayConfig
  self : String
  eagerPeers : List OverlayPeer
  lazyPeers : List OverlayPeer

def Overlay.new (selfNodeID : String) (cfg : OverlayConfig) : Overlay :=
  ⟨cfg.withDefaults, selfNodeID, [], []⟩

/-- `sort.Slice` by round-trip time, of which only the outcome is specified. -/
structure SortSlice where
  sort : List PeerInfo → List PeerInfo
  perm : ∀ peers, (sort peers).Perm peers
  sorted : ∀ peers, (sort peers).Pairwise fun p q => p.rtt ≤ q.rtt

private theorem rtt_le_total (p q : PeerInfo) : p.rtt ≤ q.rtt ∨ q.rtt ≤ p.rtt := by
  rw [Int64.le_iff_toInt_le, Int64.le_iff_toInt_le]
  omega

private theorem rtt_le_trans {p q r : PeerInfo} (hpq : p.rtt ≤ q.rtt)
    (hqr : q.rtt ≤ r.rtt) : p.rtt ≤ r.rtt := by
  rw [Int64.le_iff_toInt_le] at *
  omega

def SortSlice.insertion : SortSlice where
  sort := List.insertionSort fun p q => p.rtt ≤ q.rtt
  perm := List.perm_insertionSort _
  sorted :=
    have : Std.Total fun p q : PeerInfo => p.rtt ≤ q.rtt := ⟨rtt_le_total⟩
    have : IsTrans PeerInfo fun p q => p.rtt ≤ q.rtt := ⟨fun _ _ _ => rtt_le_trans⟩
    List.pairwise_insertionSort _

/-! ## Clusters -/

def appendLast (clusters : List (List Nat)) (i : Nat) : List (List Nat) :=
  clusters.dropLast ++ [clusters.getLastD [] ++ [i]]

/-- The loop of `findRTTClusters`, at index `i` and behind a peer at `prev`. -/
def clusterLoop : Int64 → Nat → List (List Nat) → List PeerInfo →
    List (List Nat)
  | _, _, clusters, [] => clusters
  | prev, i, clusters, p :: rest =>
      if rttGapThreshold < p.rtt - prev then
        clusterLoop p.rtt (i + 1) (clusters ++ [[i]]) rest
      else clusterLoop p.rtt (i + 1) (appendLast clusters i) rest

def findRTTClusters : List PeerInfo → List (List Nat)
  | [] => []
  | p :: rest => clusterLoop p.rtt 1 [[0]] rest

/-! ## Sampling

`selectDiversePeers` and `selectEager` share these two loops: one slot for each
of `reserved` clusters, spread evenly, then the nearest peers up to the budget.
-/

def reserveSlot (clusters : List (List Nat)) (reserved : Nat)
    (flags : List Bool) (i : Nat) : Option (List Bool) := do
  let cluster ← clusters[i * clusters.length / reserved]?
  let first ← cluster[0]?
  if first < flags.length then some (flags.set first true) else none

def reserveSlots (clusters : List (List Nat)) (reserved : Nat)
    (flags : List Bool) : Option (List Bool) :=
  (List.range reserved).foldlM (reserveSlot clusters reserved) flags

def fillSlots (budget : Int) : Int → List Bool → List Bool
  | _, [] => []
  | count, flag :: flags =>
      if budget ≤ count then flag :: flags
      else if flag then true :: fillSlots budget count flags
      else true :: fillSlots budget (count + 1) flags

def sampleClusters (clusters : List (List Nat)) (budget : Int) (n : Nat) :
    Option (List Bool) := do
  let reserved := if budget > clusters.length then (clusters.length : Int)
    else budget
  let flags ← reserveSlots clusters reserved.toNat (List.replicate n false)
  some (fillSlots budget reserved.toNat flags)

def flagged {α : Type} (value : Bool) (xs : List α) (flags : List Bool) :
    List α :=
  ((xs.zip flags).filter fun x => x.2 == value).map Prod.fst

def selectDiversePeers (peers : List PeerInfo) (totalMax : Int) :
    Option (List PeerInfo) :=
  let clusters := findRTTClusters peers
  if clusters.length ≤ 1 then
    if 0 ≤ totalMax ∧ totalMax ≤ peers.length then
      some (peers.take totalMax.toNat)
    else none
  else do
    let selected ← sampleClusters clusters totalMax peers.length
    some (flagged true peers selected)

/-! ## The single-cluster split -/

/-- One turn of the loop of `findRTTGap`, on `(maxGap, gapIdx)`. -/
def gapTurn (peers : List PeerInfo) (best : Int64 × Int) (i : Nat) :
    Option (Int64 × Int) := do
  let p ← peers[i]?
  let q ← peers[i - 1]?
  let gap := p.rtt - q.rtt
  if best.1 < gap then some (gap, (i : Int)) else some best

def findRTTGap (cfg : OverlayConfig) (peers : List PeerInfo) : Option Int :=
  let n : Int := peers.length
  if n ≤ goInt (cfg.minEagerPeers + cfg.minLazyPeers) then
    some (min cfg.minEagerPeers n)
  else do
    let lo := if cfg.minEagerPeers < 1 then 1 else cfg.minEagerPeers
    let hi := n - cfg.minLazyPeers
    let hi := if hi > n then n else hi
    let (maxGap, gapIdx) ← (List.range' lo.toNat (hi - lo).toNat).foldlM
      (gapTurn peers) ((0 : Int64), cfg.minEagerPeers)
    if maxGap < rttGapThreshold then
      if n ≤ cfg.maxEagerPeers then some n else some cfg.maxEagerPeers
    else some gapIdx

/-- The adjustments `selectEager` makes to the index it splits at. -/
def clampGap (cfg : OverlayConfig) (n gapIdx : Int) : Int :=
  let gapIdx := if gapIdx < cfg.minEagerPeers then cfg.minEagerPeers else gapIdx
  let gapIdx := if gapIdx > cfg.maxEagerPeers then cfg.maxEagerPeers else gapIdx
  let gapIdx := if gapIdx > n then n else gapIdx
  let gapIdx :=
    if n - gapIdx < cfg.minLazyPeers ∧
      n > goInt (cfg.minEagerPeers + cfg.minLazyPeers) then
      n - cfg.minLazyPeers
    else gapIdx
  if gapIdx < 0 then 0 else gapIdx

def selectEager (cfg : OverlayConfig) (peers : List PeerInfo) :
    Option (List Bool) :=
  let n : Int := peers.length
  let clusters := findRTTClusters peers
  if clusters.length ≤ 1 then do
    let gapIdx ← findRTTGap cfg peers
    let gapIdx := clampGap cfg n gapIdx
    if gapIdx ≤ n then
      some (List.replicate gapIdx.toNat true ++
        List.replicate (n - gapIdx).toNat false)
    else none
  else
    let lazyBudget := n - cfg.minLazyPeers
    let maxEager := if lazyBudget < cfg.maxEagerPeers then lazyBudget
      else cfg.maxEagerPeers
    let maxEager := if maxEager < 0 then 0 else maxEager
    sampleClusters clusters maxEager peers.length

/-! ## Reclassification -/

def capPeers (cfg : OverlayConfig) (peers : List PeerInfo) :
    Option (List PeerInfo) :=
  let totalMax := goInt (cfg.maxEagerPeers + cfg.maxLazyPeers)
  if (peers.length : Int) > totalMax then selectDiversePeers peers totalMax
  else some peers

def classify (isEager : Bool) (p : PeerInfo) : OverlayPeer :=
  ⟨p.nodeID, p.addr, p.rtt, isEager⟩

namespace Overlay

def reclassify (o : Overlay) (sorter : SortSlice) (peers : List PeerInfo) :
    Option Overlay :=
  let peers := peers.filter fun p => p.nodeID ≠ o.self
  if peers.length = 0 then some { o with eagerPeers := [], lazyPeers := [] }
  else do
    let peers ← capPeers o.cfg (sorter.sort peers)
    let isEager ← selectEager o.cfg peers
    some { o with
      eagerPeers := (flagged true peers isEager).map (classify true)
      lazyPeers := (flagged false peers isEager).map (classify false) }

def allPeers (o : Overlay) : List OverlayPeer := o.eagerPeers ++ o.lazyPeers

/-- Despite its name the first `n` of all peers; `n` is never negative. -/
def randomPeers (o : Overlay) (n : Nat) : List OverlayPeer :=
  if o.allPeers.length ≤ n then o.allPeers else o.allPeers.take n

end Overlay

end GossipMesh
