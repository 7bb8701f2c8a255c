import GossipMesh.Mesh.Mesh
import GossipMesh.Overlay.Partition

/-!
# What a node knows of its peers

`IsAlive`, `AddrForNode` and `LivePeers` answer from the map of peers.  The map
holds, of every node, what the latest notification said that could be decoded,
unless the node has left since.
-/

namespace GossipMesh

open GossipMesh.Foundation

variable {Coord : Type}

namespace Membership

def isAlive (m : Membership Coord) (nodeID : String) : Bool :=
  match m.peers.lookup nodeID with
  | none => false
  | some p => p.alive

def addrForNode (m : Membership Coord) (nodeID : String) : String :=
  match m.peers.lookup nodeID with
  | none => ""
  | some p =>
      if p.alive then joinHostPort p.nodeMeta.quicAddr (toString p.nodeMeta.quicPort) else ""

def peersAfter (m : Membership Coord) : Finmap fun _ : String => PeerInfo Coord :=
  match m.handler with
  | some (.store info) => m.peers.insert info.nodeID info
  | some (.remove name) => m.peers.erase name
  | _ => m.peers

def Applied (m : Membership Coord) : Prop :=
  (∀ info, m.handler ≠ some (.store info)) ∧ ∀ name, m.handler ≠ some (.remove name)

theorem peersAfter_of_applied {m : Membership Coord} (h : m.Applied) :
    m.peersAfter = m.peers := by
  unfold peersAfter
  split
  · next info hhandler => exact absurd hhandler (h.1 info)
  · next name hhandler => exact absurd hhandler (h.2 name)
  · rfl

theorem peersAfter_advances {m m' : Membership Coord}
    {called : Option (List (PeerInfo Coord))} (h : m.Advances m' called) :
    m'.peersAfter = m.peersAfter := by
  cases h with
  | store info hhandler => simp [peersAfter, hhandler]
  | remove name hhandler =>
      cases hset : m.onLeave <;> simp [peersAfter, hhandler]
  | onLeave name hhandler => simp [peersAfter, hhandler]
  | notifyChange hhandler =>
      cases hset : m.onChange <;> simp [peersAfter, hhandler]
  | livePeers order hhandler horder => simp [peersAfter, hhandler]
  | onChange peers hhandler => simp [peersAfter, hhandler]

theorem peers_advances {m m' : Membership Coord}
    {called : Option (List (PeerInfo Coord))} (h : m.Advances m' called) :
    m'.peers = m.peers ∨ m'.peers = m.peersAfter := by
  cases h with
  | store info hhandler => exact .inr (by simp [peersAfter, hhandler])
  | remove name hhandler => exact .inr (by simp [peersAfter, hhandler])
  | _ => exact .inl rfl

theorem peerInfo_nodeID {c : Codec Coord} {node : MemberNode} {distance : Int64}
    {info : PeerInfo Coord} (h : peerInfo c node distance = some info) :
    info.nodeID = node.name := by
  obtain ⟨nodeMeta, -, rfl⟩ := Option.map_eq_some_iff.mp h
  rfl

/-! ## The notifications -/

def news (c : Codec Coord) (name : String) (known : Option (PeerInfo Coord)) :
    MeshLabel → Option (PeerInfo Coord)
  | .notifyJoin node distance | .notifyUpdate node distance =>
      if node.name = name then (peerInfo c node distance).or known else known
  | .notifyLeave node => if node.name = name then none else known
  | .startup | .startupFails | .setOnLeave | .handle _ _ => known

def latest (c : Codec Coord) (labels : List MeshLabel) (name : String) :
    Option (PeerInfo Coord) :=
  labels.foldl (fun known l => news c name known l) none

theorem latest_snoc (c : Codec Coord) (labels : List MeshLabel) (l : MeshLabel) (name : String) :
    latest c (labels ++ [l]) name = news c name (latest c labels name) l := by
  simp [latest]

theorem latest_eq_some {c : Codec Coord} {labels : List MeshLabel} {name : String}
    {p : PeerInfo Coord} (h : latest c labels name = some p) :
    p.nodeID = name ∧ p.alive = true := by
  induction labels using List.reverseRecOn generalizing p with
  | nil => cases h
  | append_singleton labels l ih =>
      rw [latest_snoc] at h
      have hstored : ∀ node distance,
          (if node.name = name then (peerInfo c node distance).or (latest c labels name)
            else latest c labels name) = some p → p.nodeID = name ∧ p.alive = true := by
        intro node distance hinfo
        split at hinfo
        · next hname =>
            rcases Option.or_eq_some_iff.mp hinfo with hinfo | ⟨-, hknown⟩
            · exact ⟨(peerInfo_nodeID hinfo).trans hname, peerInfo_alive hinfo⟩
            · exact ih hknown
        · exact ih hinfo
      cases l with
      | notifyJoin node distance => exact hstored node distance h
      | notifyUpdate node distance => exact hstored node distance h
      | notifyLeave node =>
          simp only [news] at h
          split at h
          · cases h
          · exact ih h
      | startup | startupFails | setOnLeave | handle => exact ih h

end Membership

namespace Mesh

variable {c : Membership.Codec Coord} {cfg : MeshConfig} {m m' : Mesh Coord}

/-! ## Steps -/

private theorem lookup_deliver_store {node : Membership.MemberNode} {distance : Int64}
    (h : m.deliver ((Membership.peerInfo c node distance).map .store) = some m') (name : String) :
    m'.membership.peersAfter.lookup name =
      if node.name = name then
        (Membership.peerInfo c node distance).or (m.membership.peersAfter.lookup name)
      else m.membership.peersAfter.lookup name := by
  unfold deliver at h
  split at h
  · next hready =>
      have hidle : m.membership.handler = none := by simpa using hready.2
      have hpeers : m.membership.peersAfter = m.membership.peers := by
        simp [Membership.peersAfter, hidle]
      cases hinfo : Membership.peerInfo c node distance with
      | none =>
          simp only [hinfo, Option.map_none] at h
          cases h
          simp
      | some info =>
          simp only [hinfo, Option.map_some] at h
          cases h
          have hid := Membership.peerInfo_nodeID hinfo
          rw [hpeers]
          change (m.membership.peers.insert info.nodeID info).lookup name = _
          by_cases hname : node.name = name
          · rw [hid, hname, Finmap.lookup_insert, if_pos rfl, Option.some_or]
          · rw [Finmap.lookup_insert_of_ne _ (by rw [hid]; exact Ne.symm hname), if_neg hname]
  · cases h

private theorem lookup_deliver_remove {node : Membership.MemberNode}
    (h : m.deliver (some (Membership.notifyLeave node)) = some m') (name : String) :
    m'.membership.peersAfter.lookup name =
      if node.name = name then none else m.membership.peersAfter.lookup name := by
  unfold deliver at h
  split at h
  · next hready =>
      have hidle : m.membership.handler = none := by simpa using hready.2
      have hpeers : m.membership.peersAfter = m.membership.peers := by
        simp [Membership.peersAfter, hidle]
      cases h
      rw [hpeers]
      change (m.membership.peers.erase node.name).lookup name = _
      by_cases hname : node.name = name
      · rw [hname, Finmap.lookup_erase, if_pos rfl]
      · rw [Finmap.lookup_erase_ne (Ne.symm hname), if_neg hname]
  · cases h

theorem lookup_step {l : MeshLabel} (h : m.step c cfg l = some m') (name : String) :
    m'.membership.peersAfter.lookup name =
      Membership.news c name (m.membership.peersAfter.lookup name) l := by
  cases l with
  | startup =>
      simp only [step, startup] at h
      split at h <;> cases h <;> rfl
  | startupFails =>
      simp only [step, startupFails] at h
      split at h <;> cases h <;> rfl
  | setOnLeave =>
      cases h
      rfl
  | notifyJoin node distance => exact lookup_deliver_store h name
  | notifyUpdate node distance => exact lookup_deliver_store h name
  | notifyLeave node => exact lookup_deliver_remove h name
  | handle order sorter =>
      simp only [step, handle, Option.bind_eq_bind, Option.bind_eq_some_iff] at h
      obtain ⟨⟨membership, called⟩, hadvance, h⟩ := h
      have hpeers := Membership.peersAfter_advances (Membership.advances_of_advance hadvance)
      cases called with
      | none =>
          cases h
          rw [hpeers]
          rfl
      | some peers =>
          simp only [Option.bind_eq_some_iff] at h
          obtain ⟨before, -, overlay, -, h⟩ := h
          cases h
          rw [hpeers]
          rfl

theorem peers_step {l : MeshLabel} (h : m.step c cfg l = some m') :
    m'.membership.peers = m.membership.peers ∨
      m'.membership.peers = m.membership.peersAfter := by
  rcases steps_of_step h with ⟨-, -, rfl⟩ | ⟨-, hsteps⟩
  · exact .inl rfl
  · cases hsteps with
    | advance membership hadvances => exact Membership.peers_advances hadvances
    | classify membership peers overlay hadvances => exact Membership.peers_advances hadvances
    | _ => exact .inl rfl

/-- The overlay has no peers but those it was last classified from. -/
def Held (m : Mesh Coord) : Prop :=
  ∀ o, m.overlay = some o → ∀ q ∈ o.allPeers, q.info ∈ m.classifiedFrom

private theorem held_startup (hm : m.Held) (h : m.startup cfg = some m') : m'.Held := by
  unfold startup at h
  split at h
  case h_4 =>
      cases h
      intro o ho q hq
      cases ho
      cases hq
  case h_6 | h_7 => cases h
  all_goals
    cases h
    exact hm

theorem held_step {l : MeshLabel} (hm : m.Held) (h : m.step c cfg l = some m') : m'.Held := by
  have hdeliver : ∀ handler, m.deliver handler = some m' → m'.Held := by
    intro handler hdeliver
    unfold deliver at hdeliver
    split at hdeliver
    · split at hdeliver <;> (cases hdeliver; exact hm)
    · cases hdeliver
  cases l with
  | startup => exact held_startup hm h
  | startupFails =>
      simp only [step, startupFails] at h
      split at h <;> cases h <;> exact hm
  | setOnLeave =>
      cases h
      exact hm
  | notifyJoin | notifyUpdate => exact hdeliver _ h
  | notifyLeave node => exact hdeliver (some (Membership.notifyLeave node)) h
  | handle order sorter =>
      simp only [step, handle, Option.bind_eq_bind, Option.bind_eq_some_iff] at h
      obtain ⟨⟨membership, called⟩, -, h⟩ := h
      cases called with
      | none =>
          cases h
          exact hm
      | some peers =>
          simp only [Option.bind_eq_some_iff] at h
          obtain ⟨before, -, overlay, hreclassify, h⟩ := h
          cases h
          intro o ho q hq
          cases ho
          exact Overlay.reclassify_origin hreclassify hq

/-! ## Runs -/

theorem lookup_run {labels : List MeshLabel}
    (hrun : exec (step c cfg) (.new : Mesh Coord) labels = some m) (name : String) :
    m.membership.peersAfter.lookup name = Membership.latest c labels name := by
  induction labels using List.reverseRecOn generalizing m with
  | nil =>
      cases hrun
      rfl
  | append_singleton labels l ih =>
      obtain ⟨before, hbefore, hstep⟩ := exec_snoc_eq_some.mp hrun
      rw [Membership.latest_snoc, lookup_step hstep, ih hbefore]

theorem Sound.step {l : MeshLabel} (hm : m.Sound) (h : m.step c cfg l = some m') : m'.Sound := by
  rcases steps_of_step h with ⟨-, -, rfl⟩ | ⟨-, hsteps⟩
  · exact hm.wire
  · exact hm.steps hsteps

private theorem sound_run {labels : List MeshLabel}
    (hrun : exec (Mesh.step c cfg) (.new : Mesh Coord) labels = some m) : m.Sound :=
  exec_invariant Sound (fun _ _ _ hs hstep => hs.step hstep) Sound.new hrun

/--
Once a notification has been applied, the queries answer from it: a node is
alive, at the address of its metadata, and among the live peers if the latest
notification on it that could be decoded was a join or an update and it has not
left since.  An overlay in step with the membership has no peer that is not
alive, and sends to that address.
-/
theorem queries_answer_latest {labels : List MeshLabel}
    (hrun : exec (step c cfg) (.new : Mesh Coord) labels = some m)
    (happlied : m.membership.Applied) (name : String) :
    m.membership.isAlive name = (Membership.latest c labels name).isSome ∧
    m.membership.addrForNode name =
      ((Membership.latest c labels name).map fun p => (overlayPeer p).addr).getD "" ∧
    (∀ order, m.membership.IterationOrder order → ∀ p,
      (p ∈ m.membership.livePeers order ∧ p.nodeID = name) ↔
        Membership.latest c labels name = some p) ∧
    (m.InStep → ∀ o, m.overlay = some o → ∀ q ∈ o.allPeers, q.nodeID = name →
      m.membership.isAlive name = true ∧ q.addr = m.membership.addrForNode name) := by
  have hlookup : ∀ other, m.membership.peers.lookup other = Membership.latest c labels other := by
    intro other
    rw [← Membership.peersAfter_of_applied happlied]
    exact lookup_run hrun other
  have halive : m.membership.isAlive name = (Membership.latest c labels name).isSome := by
    rw [Membership.isAlive, hlookup]
    cases hlatest : Membership.latest c labels name with
    | none => rfl
    | some p => exact (Membership.latest_eq_some hlatest).2
  have haddr : m.membership.addrForNode name =
      ((Membership.latest c labels name).map fun p => (overlayPeer p).addr).getD "" := by
    rw [Membership.addrForNode, hlookup]
    cases hlatest : Membership.latest c labels name with
    | none => rfl
    | some p => exact if_pos (Membership.latest_eq_some hlatest).2
  have hlive : ∀ order, m.membership.IterationOrder order → ∀ p,
      (p ∈ m.membership.livePeers order ∧ p.nodeID = name) ↔
        Membership.latest c labels name = some p := by
    intro order horder p
    rw [Membership.mem_livePeers (sound_run hrun).membership horder]
    constructor
    · rintro ⟨⟨other, hp⟩, rfl⟩
      rw [hlookup] at hp
      rwa [(Membership.latest_eq_some hp).1]
    · intro hp
      exact ⟨⟨name, (hlookup name).trans hp⟩, (Membership.latest_eq_some hp).1⟩
  refine ⟨halive, haddr, hlive, ?_⟩
  intro hinStep o ho q hq hname
  have hheld : m.Held := exec_invariant Held (fun _ _ _ hs hstep => held_step hs hstep)
    (fun o ho => by cases ho) hrun
  have horder : m.membership.IterationOrder m.membership.peers.keys.toList :=
    ⟨Finset.nodup_toList _, Finset.toList_toFinset _⟩
  obtain ⟨p, hp, hinfo⟩ := List.mem_map.mp ((hinStep _ horder q.info).mp (hheld o ho q hq))
  have hid : p.nodeID = name := (congrArg PeerInfo.nodeID hinfo).trans hname
  rw [halive, haddr, (hlive _ horder p).mp ⟨hp, hid⟩]
  exact ⟨rfl, (congrArg PeerInfo.addr hinfo).symm⟩

def strictCodec : Membership.Codec Unit where
  decodeMeta bytes := if bytes.length = 1 then none else some ⟨"b", none, "10.0.0.2", 7947, []⟩
  isValid _ := true

def joinThenGarbage : List MeshLabel :=
  -- `b` joins and is then updated with metadata that cannot be decoded
  joinDuringWiring ++ [.notifyUpdate ⟨"b", "10.0.0.3", [0]⟩ 0]

theorem queries_answer_latest_joinThenGarbage :
    ∃ m o q, exec (step strictCodec plainConfig) new joinThenGarbage = some m ∧
      m.membership.isAlive "b" = true ∧ m.membership.addrForNode "b" = "10.0.0.2:7947" ∧
      m.overlay = some o ∧ q ∈ o.allPeers ∧ q.addr = m.membership.addrForNode "b" := by
  have hsome : (exec (step strictCodec plainConfig) new joinThenGarbage).isSome := by decide
  obtain ⟨m, hrun⟩ := Option.isSome_iff_exists.mp hsome
  have hend : ∀ m, exec (step strictCodec plainConfig) new joinThenGarbage = some m →
      m.membership.handler.isNone = true ∧ m.membership.onChange = true ∧
      (m.overlay.map fun o => o.allPeers.map OverlayPeer.nodeID) = some ["b"] := by
    decide
  obtain ⟨hnone, hset, hpeers⟩ := hend m hrun
  have hidle : m.membership.handler = none := Option.isNone_iff_eq_none.mp hnone
  obtain ⟨o, ho, hnames⟩ := Option.map_eq_some_iff.mp hpeers
  obtain ⟨q, hq, hname⟩ := List.mem_map.mp (hnames ▸ List.mem_singleton_self "b")
  have hinStep : m.InStep := (exec_invariant_of_along
    (fun m : Mesh Unit => m.Sound ∧ (m.Settled → m.InStep))
    (fun _ _ _ hs htime hstep => (inStep_step_iff hs.1 hs.2 hstep).mpr htime)
    ⟨.new, by rintro ⟨⟨⟩, -⟩⟩ (by decide) hrun).2 ⟨hset, hidle⟩
  obtain ⟨halive, haddr, -, hoverlay⟩ :=
    queries_answer_latest hrun ⟨by simp [hidle], by simp [hidle]⟩ "b"
  exact ⟨m, o, q, hrun, halive, haddr, ho, hq, (hoverlay hinStep o ho q hq hname).2⟩

end Mesh

end GossipMesh
