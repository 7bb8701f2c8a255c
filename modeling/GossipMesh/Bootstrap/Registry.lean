import GossipMesh.Objstore.Scan

/-!
# The registry of nodes

A node registers under a key made of its node ID and is removed by deleting
that key.  `DiscoverPeers` is a scan of the keys of all nodes.  JSON is a
parameter.
-/

namespace GossipMesh.Bootstrap

open GossipMesh.Foundation GossipMesh.Objstore

def nodePrefix : String := "nodes/"

structure NodeRegistration where
  nodeID : String
  addrs : List String
  publicAddr : String
  isRelay : Bool
  -- zero is the zero time
  registeredAt : Nat
  deriving DecidableEq

def nodeKey (nodeID : String) : String := nodePrefix ++ nodeID

def stamped (now : Nat) (reg : NodeRegistration) : NodeRegistration :=
  if reg.registeredAt = 0 then { reg with registeredAt := now } else reg

def register (c : Marshaller NodeRegistration) (now : Nat) (store : MemoryObjectStore)
    (reg : NodeRegistration) : Option MemoryObjectStore :=
  -- `none` is an error, before anything is stored
  (c.marshal (stamped now reg)).map fun data =>
    (store.put (nodeKey reg.nodeID) data noOptions).2

def deregister (store : MemoryObjectStore) (nodeID : String) : MemoryObjectStore :=
  store.delete (nodeKey nodeID)

def addPeer (c : Marshaller NodeRegistration) (peers : List NodeRegistration) (data : Bytes) :
    List NodeRegistration :=
  match c.unmarshal data with
  -- malformed entries are skipped
  | none => peers
  | some reg => peers ++ [reg]

def discoverPeers (store : MemoryObjectStore) : Scan (List NodeRegistration) :=
  .start store nodePrefix []

/-! ## Registered nodes -/

/-- There is a registration under the key of the node, and it names the node. -/
def Registered (c : Marshaller NodeRegistration) (store : MemoryObjectStore)
    (nodeID : String) : Prop :=
  ∃ data reg, store.contents (nodeKey nodeID) = some data ∧ c.unmarshal data = some reg ∧
    reg.nodeID = nodeID

variable {c : Marshaller NodeRegistration} {store store' : MemoryObjectStore}
  {nodeID other : String}

theorem nodeKey_inj : nodeKey nodeID = nodeKey other ↔ nodeID = other := by
  simp [nodeKey]

theorem nodePrefix_nodeKey (nodeID : String) :
    nodePrefix.toList <+: (nodeKey nodeID).toList := by
  simp [nodeKey]

theorem stamped_nodeID (now : Nat) (reg : NodeRegistration) :
    (stamped now reg).nodeID = reg.nodeID := by
  unfold stamped
  split <;> rfl

theorem registered_register {now : Nat} {reg : NodeRegistration}
    (h : register c now store reg = some store') : Registered c store' reg.nodeID := by
  obtain ⟨data, hdata, rfl⟩ := Option.map_eq_some_iff.mp h
  refine ⟨data, stamped now reg, ?_, c.lossless _ _ hdata, stamped_nodeID now reg⟩
  rw [MemoryObjectStore.put_noOptions, MemoryObjectStore.contents_write, if_pos rfl]

theorem Registered.register {now : Nat} {reg : NodeRegistration}
    (hother : Registered c store other) (h : register c now store reg = some store') :
    Registered c store' other := by
  by_cases hid : other = reg.nodeID
  · rw [hid]
    exact registered_register h
  · obtain ⟨data, -, rfl⟩ := Option.map_eq_some_iff.mp h
    obtain ⟨old, reg', hold, hreg', hid'⟩ := hother
    refine ⟨old, reg', ?_, hreg', hid'⟩
    rw [MemoryObjectStore.put_noOptions, MemoryObjectStore.contents_write,
      if_neg fun h => hid (nodeKey_inj.mp h), hold]

theorem registered_deregister_iff :
    Registered c (deregister store nodeID) other ↔ other ≠ nodeID ∧ Registered c store other := by
  unfold Registered deregister
  by_cases hother : other = nodeID
  · simp [MemoryObjectStore.contents_delete, hother]
  · rw [MemoryObjectStore.contents_delete, if_neg fun h => hother (nodeKey_inj.mp h)]
    simp [hother]

/-! ## Discovery -/

def Lists (nodeID : String) (peers : List NodeRegistration) : Prop :=
  ∃ reg ∈ peers, reg.nodeID = nodeID

private theorem Lists.addPeer {peers : List NodeRegistration} (h : Lists nodeID peers) (data : Bytes) :
    Lists nodeID (addPeer c peers data) := by
  obtain ⟨reg, hmem, hid⟩ := h
  unfold Bootstrap.addPeer
  split
  · exact ⟨reg, hmem, hid⟩
  · exact ⟨reg, List.mem_append_left _ hmem, hid⟩

theorem covers_discoverPeers (h : Registered c store nodeID) :
    (discoverPeers store).Covers (nodeKey nodeID) (Lists nodeID) := by
  obtain ⟨data, -, hdata, -⟩ := h
  exact Scan.covers_start (nodePrefix_nodeKey nodeID) (by simp [hdata]) []

theorem covers_next {scan scan' : Scan (List NodeRegistration)} (h : Registered c store nodeID)
    (hcovers : scan.Covers (nodeKey nodeID) (Lists nodeID))
    (hnext : scan.next (addPeer c) store = some scan') :
    scan'.Covers (nodeKey nodeID) (Lists nodeID) := by
  obtain ⟨data, reg, hdata, hreg, hid⟩ := h
  refine hcovers.next (fun found data hfound => hfound.addPeer data) ⟨data, hdata, ?_⟩ hnext
  intro found
  exact ⟨reg, by simp [addPeer, hreg], hid⟩

end GossipMesh.Bootstrap
