import GossipMesh.S3nat.Registration

/-!
# Connecting to discovered peers

For every peer in the registry that is not known to be alive, the extension
tries to join it through memberlist, then to punch a hole to it, then to reach
it through a relay.  Punching needs the public address of the peer, relaying a
registration that offers it.  What the network answers is a parameter.
-/

namespace GossipMesh.S3nat

open GossipMesh.Foundation GossipMesh.Objstore GossipMesh.Bootstrap

inductive Attempt where
  | join (addr : String)
  | punch (target : String)
  | relay (relayAddr target : String)
  deriving DecidableEq

structure Outcomes where
  alive : Bool
  joins : Bool
  punches : Bool
  -- what `tryRelay` discovers
  relays : Option (List NodeRegistration)
  dials : String → Bool

def tryMemberlistJoin (o : Outcomes) (peer : NodeRegistration) : List Attempt × Bool :=
  match peer.addrs with
  | [] => ([], false)
  | addr :: _ => ([.join addr], o.joins)

def tryHolePunch (o : Outcomes) (peer : NodeRegistration) : List Attempt × Bool :=
  if peer.publicAddr = "" then ([], false) else ([.punch peer.nodeID], o.punches)

def relayAddr (p : NodeRegistration) : String :=
  if p.publicAddr = "" then p.addrs.head?.getD "" else p.publicAddr

def relayVia (self target : String) (dials : String → Bool) : List NodeRegistration → List Attempt
  -- the loop of `tryRelay`, which ends at the first relay that can be dialled
  | [] => []
  | p :: peers =>
      if p.isRelay = false ∨ p.nodeID = self ∨ p.nodeID = target then
        relayVia self target dials peers
      else if relayAddr p = "" then relayVia self target dials peers
      else
        .relay (relayAddr p) target ::
          if dials (relayAddr p) then [] else relayVia self target dials peers

def tryRelay (self : String) (o : Outcomes) (target : NodeRegistration) : List Attempt :=
  if target.isRelay then []
  else
    match o.relays with
    | none => []
    | some peers => relayVia self target.nodeID o.dials peers

/-- One turn of the loop of `discoverAndConnect`. -/
def connect (self : String) (o : Outcomes) (peer : NodeRegistration) : List Attempt :=
  if peer.nodeID = self then []
  else if o.alive then []
  else
    let joined := tryMemberlistJoin o peer
    if joined.2 then joined.1
    else
      let punched := tryHolePunch o peer
      if punched.2 then joined.1 ++ punched.1
      else joined.1 ++ punched.1 ++ tryRelay self o peer

def discoverAndConnect (self : String) (outcomes : Nat → Outcomes)
    (peers : List NodeRegistration) : List Attempt :=
  peers.zipIdx.flatMap fun p => connect self (outcomes p.2) p.1

/-! ## Registrations of the extension -/

/-- The registration is one that `Start` makes for a node. -/
def Own (cfg : String → Config) (reg : NodeRegistration) : Prop :=
  ∃ id now, reg = stamped now (registration id (cfg id))

def bindAddr (cfg : Config) : String := joinHostPort cfg.bindAddr (toString cfg.bindPort)

theorem Own.fields {cfg : String → Config} {reg : NodeRegistration} (h : Own cfg reg) :
    reg.publicAddr = "" ∧ reg.isRelay = false ∧
      reg.addrs.head? = some (bindAddr (cfg reg.nodeID)) := by
  obtain ⟨id, now, rfl⟩ := h
  unfold stamped
  split <;> exact ⟨rfl, rfl, rfl⟩

/-- Whatever `DiscoverPeers` lists and can decode is a registration of the extension. -/
def AllOwn (j : Marshaller NodeRegistration) (cfg : String → Config)
    (store : MemoryObjectStore) : Prop :=
  ∀ key data reg, nodePrefix.toList <+: key.toList → store.contents key = some data →
    j.unmarshal data = some reg → Own cfg reg

/-- A call of `DiscoverPeers` reads no other keys, and has found nothing else. -/
structure Scanned (cfg : String → Config) (scan : Scan (List NodeRegistration)) : Prop where
  todo : ∀ key ∈ scan.todo, nodePrefix.toList <+: key.toList
  found : ∀ reg ∈ scan.found, Own cfg reg

namespace System

variable {Coord : Type} {c : Membership.Codec Coord} {j : Marshaller NodeRegistration}
  {cfg : String → Config} {s t : System Coord} {store store' : MemoryObjectStore}

theorem allOwn_register {id : String} {now : Nat} (hstore : AllOwn j cfg store)
    (h : Bootstrap.register j now store (registration id (cfg id)) = some store') :
    AllOwn j cfg store' := by
  obtain ⟨data, hdata, rfl⟩ := Option.map_eq_some_iff.mp h
  rw [MemoryObjectStore.put_noOptions]
  intro key found reg hkey hfound hreg
  rw [MemoryObjectStore.contents_write] at hfound
  split at hfound
  · cases hfound
    rw [j.lossless _ _ hdata, Option.some.injEq] at hreg
    exact ⟨id, now, hreg.symm⟩
  · exact hstore key found reg hkey hfound hreg

theorem allOwn_deregister (hstore : AllOwn j cfg store) (nodeID : String) :
    AllOwn j cfg (deregister store nodeID) := by
  intro key found reg hkey hfound hreg
  rw [deregister, MemoryObjectStore.contents_delete] at hfound
  split at hfound
  · cases hfound
  · exact hstore key found reg hkey hfound hreg

/-- The store and every discovery in progress know registrations of the extension only. -/
structure Plain (j : Marshaller NodeRegistration) (cfg : String → Config) (s : System Coord) :
    Prop where
  stored : AllOwn j cfg s.store
  scanned : ∀ id scan, (s.processes id).discovery = some scan → Scanned cfg scan

theorem scanned_setProcess {id : String} {p : Process Coord} (hs : Plain j cfg s)
    (hp : ∀ scan, p.discovery = some scan → Scanned cfg scan) :
    ∀ other scan, ((s.setProcess id p).processes other).discovery = some scan →
      Scanned cfg scan :=
  forall_update (P := fun (_ : String) (p : Process Coord) => ∀ scan, p.discovery = some scan →
    Scanned cfg scan) hs.scanned hp

private theorem scanned_start (store : MemoryObjectStore) : Scanned cfg (discoverPeers store) where
  todo key hkey := (MemoryObjectStore.mem_list.mp hkey).2
  found reg hreg := by cases hreg

private theorem scanned_next {scan scan' : Scan (List NodeRegistration)} (hstore : AllOwn j cfg store)
    (hscan : Scanned cfg scan) (hnext : scan.next (addPeer j) store = some scan') :
    Scanned cfg scan' := by
  obtain ⟨key, todo, htodo, htodo', hfound⟩ := Scan.next_cases hnext
  refine ⟨fun other hother => hscan.todo other (by rw [htodo, ← htodo']; simp [hother]), ?_⟩
  rw [hfound]
  cases hcontents : store.contents key with
  | none => exact hscan.found
  | some data =>
      simp only [Option.map_some, Option.getD_some, addPeer]
      cases hreg : j.unmarshal data with
      | none => exact hscan.found
      | some added =>
          intro reg hmem
          rcases List.mem_append.mp hmem with hmem | hmem
          · exact hscan.found reg hmem
          · rw [List.mem_singleton.mp hmem]
            exact hstore key data added (hscan.todo key (by simp [htodo])) hcontents hreg

theorem plain_step (hs : Plain j cfg s) {label : Label} (h : Steps j cfg s label t) :
    Plain j cfg t := by
  have hkept : ∀ id, ∀ scan, (s.processes id).discovery = some scan → Scanned cfg scan :=
    hs.scanned
  cases h with
  | mesh id label mesh =>
      refine ⟨?_, scanned_setProcess hs (hkept id)⟩
      change AllOwn j cfg (onLeave s.store _)
      cases (s.processes id).leaving label with
      | none => exact hs.stored
      | some name => exact allOwn_deregister hs.stored name
  | register id now store hstore =>
      exact ⟨allOwn_register hs.stored hstore, scanned_setProcess hs (hkept id)⟩
  | discover id =>
      refine ⟨hs.stored, scanned_setProcess hs fun scan hscan => ?_⟩
      cases hscan
      exact scanned_start s.store
  | get id scan scan' hscan hnext =>
      refine ⟨hs.stored, scanned_setProcess hs fun scan'' hscan'' => ?_⟩
      cases hscan''
      exact scanned_next hs.stored (hs.scanned id scan hscan) hnext
  | deregister id =>
      exact ⟨allOwn_deregister hs.stored id, scanned_setProcess hs (hkept id)⟩
  | endDiscovery id | stop id | leave id | crash id =>
      exact ⟨hs.stored, scanned_setProcess hs nofun⟩
  | start id | setOnLeave id => exact ⟨hs.stored, scanned_setProcess hs (hkept id)⟩

/-- A list of peers that a call of `DiscoverPeers` returns in some run. -/
def Discovered (c : Membership.Codec Coord) (j : Marshaller NodeRegistration)
    (cfg : String → Config) (store : MemoryObjectStore) (peers : List NodeRegistration) : Prop :=
  ∃ labels s id, exec (step c j cfg) (initial store) labels = some s ∧
    (s.processes id).discovery = some ⟨[], peers⟩

theorem own_of_discovered {peers : List NodeRegistration} (hstore : AllOwn j cfg store)
    (h : Discovered c j cfg store peers) : ∀ reg ∈ peers, Own cfg reg := by
  obtain ⟨labels, s, id, hrun, hscan⟩ := h
  have hinit : Plain j cfg (initial store : System Coord) := ⟨hstore, nofun⟩
  have hs : Plain j cfg s := exec_invariant (Plain j cfg)
    (fun _ _ _ hs hstep => plain_step hs (steps_of_step hstep)) hinit hrun
  exact (hs.scanned id ⟨[], peers⟩ hscan).found

end System

/-! ## What is attempted -/

theorem tryMemberlistJoin_of_head {o : Outcomes} {peer : NodeRegistration} {addr : String}
    (h : peer.addrs.head? = some addr) : tryMemberlistJoin o peer = ([.join addr], o.joins) := by
  unfold tryMemberlistJoin
  cases hlist : peer.addrs with
  | nil => simp [hlist] at h
  | cons first addrs =>
      rw [hlist, List.head?_cons, Option.some.injEq] at h
      rw [h]

private theorem relayVia_of_own {cfg : String → Config} (self target : String)
    (dials : String → Bool)
    {peers : List NodeRegistration} (h : ∀ reg ∈ peers, Own cfg reg) :
    relayVia self target dials peers = [] := by
  induction peers with
  | nil => rfl
  | cons p peers ih =>
      rw [relayVia, if_pos (.inl (h p (by simp)).fields.2.1)]
      exact ih fun reg hreg => h reg (by simp [hreg])

private theorem tryRelay_of_own {cfg : String → Config} {self : String} {o : Outcomes}
    {target : NodeRegistration}
    (h : ∀ peers, o.relays = some peers → ∀ reg ∈ peers, Own cfg reg) :
    tryRelay self o target = [] := by
  unfold tryRelay
  split
  · rfl
  · cases hrelays : o.relays with
    | none => rfl
    | some peers => exact relayVia_of_own self target.nodeID o.dials (h peers hrelays)

private theorem connect_of_own {cfg : String → Config} {self : String} {o : Outcomes}
    {peer : NodeRegistration} (hpeer : Own cfg peer)
    (h : ∀ peers, o.relays = some peers → ∀ reg ∈ peers, Own cfg reg) :
    connect self o peer =
      if peer.nodeID = self ∨ o.alive then [] else [.join (bindAddr (cfg peer.nodeID))] := by
  obtain ⟨hpublic, -, haddrs⟩ := hpeer.fields
  have hjoin := tryMemberlistJoin_of_head (o := o) haddrs
  have hpunch : tryHolePunch o peer = ([], false) := if_pos hpublic
  simp only [connect, hjoin, hpunch, tryRelay_of_own h]
  by_cases hself : peer.nodeID = self
  · simp [hself]
  · cases o.alive <;> simp [hself]

/--
Between nodes that the extension itself has registered, holes are never punched
and relays never used.  Whatever the nodes do with the store, and however the
network answers, all that comes of a discovery is one join at the bind address of
each peer that is not the node itself and not known to be alive.
-/
theorem discovery_only_joins {Coord : Type} {c : Membership.Codec Coord}
    {j : Marshaller NodeRegistration} {cfg : String → Config} {store : MemoryObjectStore}
    (hstore : AllOwn j cfg store) {peers : List NodeRegistration}
    (hpeers : System.Discovered c j cfg store peers) {outcomes : Nat → Outcomes}
    (hrelays : ∀ i relays, (outcomes i).relays = some relays →
      System.Discovered c j cfg store relays) (self : String) :
    discoverAndConnect self outcomes peers =
      (peers.zipIdx.filter fun p => p.1.nodeID ≠ self && !(outcomes p.2).alive).map
        fun p => .join (bindAddr (cfg p.1.nodeID)) := by
  have hown := System.own_of_discovered hstore hpeers
  have hrelay : ∀ i relays, (outcomes i).relays = some relays → ∀ reg ∈ relays, Own cfg reg :=
    fun i relays h => System.own_of_discovered hstore (hrelays i relays h)
  have hturns : ∀ indexed : List (NodeRegistration × Nat), (∀ p ∈ indexed, Own cfg p.1) →
      indexed.flatMap (fun p => connect self (outcomes p.2) p.1) =
        (indexed.filter fun p => p.1.nodeID ≠ self && !(outcomes p.2).alive).map
          fun p => .join (bindAddr (cfg p.1.nodeID)) := by
    intro indexed hindexed
    induction indexed with
    | nil => rfl
    | cons p indexed ih =>
        rw [List.flatMap_cons, connect_of_own (hindexed p (by simp)) (hrelay p.2),
          ih fun q hq => hindexed q (by simp [hq]), List.filter_cons]
        by_cases hself : p.1.nodeID = self
        · simp [hself]
        · cases (outcomes p.2).alive <;> simp [hself]
  exact hturns peers.zipIdx fun p hp => hown p.1 (List.fst_mem_of_mem_zipIdx hp)

def unreachable (_ : Nat) : Outcomes where
  alive := false
  joins := false
  punches := true
  relays := none
  dials _ := true

theorem discovery_only_joins_unreachable : ∃ peers,
    System.Discovered Mesh.plainCodec System.sampleCodec System.sampleConfig .empty peers ∧
      peers.map NodeRegistration.nodeID = ["n", "p"] ∧
      discoverAndConnect "p" unreachable peers = [.join "10.0.0.1:7946"] := by
  have hrun : (exec (System.step Mesh.plainCodec System.sampleCodec System.sampleConfig)
      (System.initial .empty) (System.restartAfterCleanup ++
        [.discover "p", .get "p", .get "p"])).map (fun t => (t.processes "p").discovery) =
      some (some ⟨[], [stamped 2 (registration "n" (System.sampleConfig "n")),
        stamped 1 (registration "p" (System.sampleConfig "p"))]⟩) := by
    decide
  obtain ⟨s, hs, hfound⟩ := Option.map_eq_some_iff.mp hrun
  have hpeers : System.Discovered Mesh.plainCodec System.sampleCodec System.sampleConfig .empty
      [stamped 2 (registration "n" (System.sampleConfig "n")),
        stamped 1 (registration "p" (System.sampleConfig "p"))] := ⟨_, s, "p", hs, hfound⟩
  have hstore : AllOwn System.sampleCodec System.sampleConfig .empty := by
    intro key data reg _ hdata
    cases hdata
  refine ⟨_, hpeers, by decide, ?_⟩
  rw [discovery_only_joins hstore hpeers (by simp [unreachable]) "p"]
  decide

end GossipMesh.S3nat
