import GossipMesh.Bootstrap.Registry
import GossipMesh.Mesh.Mesh

/-!
# Registrations of live nodes

A node registers when its extension starts and removes its registration when
it stops.  If it fails instead, the peers that notice remove it: the callback
they set for memberlist deletes the key of the node that left.  The key does
not tell one incarnation of a node from the next, and a callback may be late.

The system is any number of nodes over one store.  A node that crashed, or
stopped, may come up again under the same node ID.
-/

namespace GossipMesh.S3nat

open GossipMesh.Foundation GossipMesh.Objstore GossipMesh.Bootstrap

/--
How far the extension has come; the last `Register` holds from `registered` on.
A `stopped` extension has removed it, and its mesh goes on until it leaves.
-/
inductive Stage where
  | idle
  | registering
  | registered
  | running
  | stopping
  | stopped
  deriving DecidableEq

structure Config where
  bindAddr : String
  bindPort : Int
  overlay : OverlayConfig

structure Process (Coord : Type) where
  mesh : Mesh Coord
  stage : Stage
  discovery : Option (Scan (List NodeRegistration))

namespace Process

variable {Coord : Type}

def new : Process Coord := ⟨.new, .idle, none⟩

def leaving (p : Process Coord) : MeshLabel → Option String
  | .handle _ _ =>
      match p.mesh.membership.handler with
      | some (.onLeave name) => some name
      | _ => none
  | _ => none

end Process

structure System (Coord : Type) where
  store : MemoryObjectStore
  processes : String → Process Coord

inductive Label where
  | mesh (id : String) (label : MeshLabel)
  | start (id : String)
  | register (id : String) (now : Nat)
  | setOnLeave (id : String)
  | discover (id : String)
  | get (id : String)
  | endDiscovery (id : String)
  | stop (id : String)
  | deregister (id : String)
  | leave (id : String)
  | crash (id : String)

def registration (id : String) (cfg : Config) : NodeRegistration where
  nodeID := id
  addrs := [joinHostPort cfg.bindAddr (toString cfg.bindPort),
    joinHostPort cfg.bindAddr (toString (cfg.bindPort + 1))]
  publicAddr := ""
  isRelay := false
  registeredAt := 0

/-- What the leave callback leaves of the store, if it is run at all. -/
def onLeave (store : MemoryObjectStore) : Option String → MemoryObjectStore
  | none => store
  | some nodeID => deregister store nodeID

namespace System

variable {Coord : Type}

def initial (store : MemoryObjectStore) : System Coord := ⟨store, fun _ => .new⟩

def setProcess (s : System Coord) (id : String) (p : Process Coord) : System Coord :=
  { s with processes := Function.update s.processes id p }

def step (c : Membership.Codec Coord) (j : Marshaller NodeRegistration) (cfg : String → Config)
    (s : System Coord) : Label → Option (System Coord)
  | .mesh id label =>
      let p := s.processes id
      match label with
      | .setOnLeave => none
      | label =>
          (p.mesh.step c ⟨id, (cfg id).overlay⟩ label).map fun mesh =>
            { s.setProcess id { p with mesh := mesh } with
              store := onLeave s.store (p.leaving label) }
  | .start id =>
      let p := s.processes id
      if p.stage = .idle ∧ p.mesh.stage = .wired then
        some (s.setProcess id { p with stage := .registering })
      else none
  | .register id now =>
      let p := s.processes id
      if p.stage = .registering then
        (Bootstrap.register j now s.store (registration id (cfg id))).map fun store =>
          { s.setProcess id { p with stage := .registered } with store := store }
      else none
  | .setOnLeave id =>
      let p := s.processes id
      if p.stage = .registered then
        (p.mesh.step c ⟨id, (cfg id).overlay⟩ .setOnLeave).map fun mesh =>
          s.setProcess id { p with mesh := mesh, stage := .running }
      else none
  | .discover id =>
      let p := s.processes id
      if p.stage = .running ∧ p.discovery.isNone then
        some (s.setProcess id { p with discovery := some (discoverPeers s.store) })
      else none
  | .get id =>
      let p := s.processes id
      match p.discovery with
      | none => none
      | some scan =>
          (scan.next (addPeer j) s.store).map fun scan =>
            s.setProcess id { p with discovery := some scan }
  | .endDiscovery id => some (s.setProcess id { s.processes id with discovery := none })
  | .stop id =>
      let p := s.processes id
      if p.stage = .running then
        some (s.setProcess id { p with stage := .stopping, discovery := none })
      else none
  | .deregister id =>
      let p := s.processes id
      if p.stage = .stopping then
        some { s.setProcess id { p with stage := .stopped } with
          store := Bootstrap.deregister s.store id }
      else none
  | .leave id => if (s.processes id).stage = .stopped then some (s.setProcess id .new) else none
  | .crash id => some (s.setProcess id .new)

/-- Its latest `Register` has completed, and it has not stopped or failed since. -/
def Live (s : System Coord) (id : String) : Prop :=
  (s.processes id).stage = .registered ∨ (s.processes id).stage = .running

instance (s : System Coord) (id : String) : Decidable (s.Live id) :=
  inferInstanceAs (Decidable (_ ∨ _))

def leaving (s : System Coord) : Label → Option String
  | .mesh id label => (s.processes id).leaving label
  | _ => none

/-- The step runs no leave callback for a live node. -/
def Spares (s : System Coord) (label : Label) : Prop :=
  ∀ name, s.leaving label = some name → ¬ s.Live name

instance (s : System Coord) (label : Label) : Decidable (s.Spares label) :=
  inferInstanceAs (Decidable (∀ name, s.leaving label = some name → ¬ s.Live name))

inductive Steps (j : Marshaller NodeRegistration) (cfg : String → Config) (s : System Coord) :
    Label → System Coord → Prop
  | mesh (id : String) (label : MeshLabel) (mesh : Mesh Coord) :
      Steps j cfg s (.mesh id label)
        { s.setProcess id { s.processes id with mesh := mesh } with
          store := onLeave s.store ((s.processes id).leaving label) }
  | start (id : String) :
      Steps j cfg s (.start id) (s.setProcess id { s.processes id with stage := .registering })
  | register (id : String) (now : Nat) (store : MemoryObjectStore)
      (hstore : Bootstrap.register j now s.store (registration id (cfg id)) = some store) :
      Steps j cfg s (.register id now)
        { s.setProcess id { s.processes id with stage := .registered } with store := store }
  | setOnLeave (id : String) (mesh : Mesh Coord) (hstage : (s.processes id).stage = .registered) :
      Steps j cfg s (.setOnLeave id)
        (s.setProcess id { s.processes id with mesh := mesh, stage := .running })
  | discover (id : String) :
      Steps j cfg s (.discover id)
        (s.setProcess id { s.processes id with discovery := some (discoverPeers s.store) })
  | get (id : String) (scan scan' : Scan (List NodeRegistration))
      (hscan : (s.processes id).discovery = some scan)
      (hnext : scan.next (addPeer j) s.store = some scan') :
      Steps j cfg s (.get id)
        (s.setProcess id { s.processes id with discovery := some scan' })
  | endDiscovery (id : String) :
      Steps j cfg s (.endDiscovery id)
        (s.setProcess id { s.processes id with discovery := none })
  | stop (id : String) :
      Steps j cfg s (.stop id)
        (s.setProcess id { s.processes id with stage := .stopping, discovery := none })
  | deregister (id : String) :
      Steps j cfg s (.deregister id)
        { s.setProcess id { s.processes id with stage := .stopped } with
          store := Bootstrap.deregister s.store id }
  | leave (id : String) (hstage : (s.processes id).stage = .stopped) :
      Steps j cfg s (.leave id) (s.setProcess id .new)
  | crash (id : String) : Steps j cfg s (.crash id) (s.setProcess id .new)

theorem steps_of_step {c : Membership.Codec Coord} {j : Marshaller NodeRegistration}
    {cfg : String → Config} {s t : System Coord} {label : Label}
    (h : s.step c j cfg label = some t) : Steps j cfg s label t := by
  cases label with
  | mesh id ml =>
      cases ml with
      | setOnLeave => cases h
      | _ =>
          obtain ⟨mesh, -, rfl⟩ := Option.map_eq_some_iff.mp h
          exact .mesh id _ mesh
  | start id =>
      simp only [step] at h
      split at h
      · cases h
        exact .start id
      · cases h
  | register id now =>
      simp only [step] at h
      split at h
      · obtain ⟨store, hstore, rfl⟩ := Option.map_eq_some_iff.mp h
        exact .register id now store hstore
      · cases h
  | setOnLeave id =>
      simp only [step] at h
      split at h
      · next hstage =>
          obtain ⟨mesh, -, rfl⟩ := Option.map_eq_some_iff.mp h
          exact .setOnLeave id mesh hstage
      · cases h
  | discover id =>
      simp only [step] at h
      split at h
      · cases h
        exact .discover id
      · cases h
  | get id =>
      simp only [step] at h
      split at h
      · cases h
      · next scan hscan =>
          obtain ⟨scan', hnext, rfl⟩ := Option.map_eq_some_iff.mp h
          exact .get id scan scan' hscan hnext
  | endDiscovery id =>
      cases h
      exact .endDiscovery id
  | stop id =>
      simp only [step] at h
      split at h
      · cases h
        exact .stop id
      · cases h
  | deregister id =>
      simp only [step] at h
      split at h
      · cases h
        exact .deregister id
      · cases h
  | leave id =>
      simp only [step] at h
      split at h
      · next hstage =>
          cases h
          exact .leave id hstage
      · cases h
  | crash id =>
      cases h
      exact .crash id

/-! ## What a step does to the registrations -/

/-- The effects a step can have on the store and on the live nodes. -/
inductive Effect (j : Marshaller NodeRegistration) (s t : System Coord) (label : Label) : Prop
  | quiet (hnone : s.leaving label = none) (hstore : t.store = s.store)
      (hlive : ∀ id, t.Live id → s.Live id)
  | registered (hnone : s.leaving label = none) (id : String)
      (hstore : Registered j t.store id)
      (hothers : ∀ other, Registered j s.store other → Registered j t.store other)
      (hlive : ∀ other, other ≠ id → t.Live other → s.Live other)
  | deregistered (hnone : s.leaving label = none) (id : String)
      (hstore : t.store = deregister s.store id) (hdead : ¬ t.Live id)
      (hlive : ∀ other, t.Live other → s.Live other)
  | left (name : String) (hleft : s.leaving label = some name)
      (hstore : t.store = deregister s.store name) (hlive : ∀ id, t.Live id ↔ s.Live id)

variable {c : Membership.Codec Coord} {j : Marshaller NodeRegistration} {cfg : String → Config}
  {s t : System Coord} {label : Label}

section Processes

variable {id : String} {p : Process Coord} (hp : t.processes = Function.update s.processes id p)
include hp

theorem live_update_self : t.Live id ↔ p.stage = .registered ∨ p.stage = .running := by
  simp [Live, hp]

theorem live_update_ne {other : String} (hother : other ≠ id) : t.Live other ↔ s.Live other := by
  simp [Live, hp, hother]

private theorem live_of_update (hlive : p.stage = .registered ∨ p.stage = .running → s.Live id)
    (other : String) (h : t.Live other) : s.Live other := by
  by_cases hother : other = id
  · subst hother
    exact hlive ((live_update_self hp).mp h)
  · exact (live_update_ne hp hother).mp h

theorem live_update_of_stage (hstage : p.stage = (s.processes id).stage) (other : String) :
    t.Live other ↔ s.Live other := by
  by_cases hother : other = id
  · subst hother
    rw [live_update_self hp, hstage]
    rfl
  · exact live_update_ne hp hother

end Processes

theorem effect_of_steps (h : Steps j cfg s label t) : Effect j s t label := by
  cases h with
  | mesh id ml mesh =>
      cases hleft : (s.processes id).leaving ml with
      | none => exact .quiet hleft rfl (live_of_update rfl fun h => h)
      | some name =>
          exact .left name hleft rfl (live_update_of_stage rfl rfl)
  | register id now store hstore =>
      refine .registered rfl id (registered_register hstore)
        (fun other hother => hother.register hstore) ?_
      intro other hother
      exact (live_update_ne rfl hother).mp
  | setOnLeave id mesh hstage =>
      exact .quiet rfl rfl (live_of_update rfl fun _ => .inl hstage)
  | start id => exact .quiet rfl rfl (live_of_update rfl (by simp))
  | stop id => exact .quiet rfl rfl (live_of_update rfl (by simp))
  | discover id => exact .quiet rfl rfl (live_of_update rfl fun h => h)
  | get id => exact .quiet rfl rfl (live_of_update rfl fun h => h)
  | endDiscovery id => exact .quiet rfl rfl (live_of_update rfl fun h => h)
  | deregister id =>
      refine .deregistered rfl id rfl ?_ (live_of_update rfl (by simp))
      rw [live_update_self rfl]
      simp
  | leave id | crash id => exact .quiet rfl rfl (live_of_update rfl (by simp [Process.new]))

/-! ## Live nodes stay registered -/

/-- Every live node has a registration in the store. -/
def AllRegistered (j : Marshaller NodeRegistration) (s : System Coord) : Prop :=
  ∀ id, s.Live id → Registered j s.store id

theorem allRegistered_initial (store : MemoryObjectStore) :
    AllRegistered j (initial store : System Coord) := by
  intro id hlive
  simp [Live, initial, Process.new] at hlive

/-- A step from a good state leads to a good one exactly if it spares the live nodes. -/
theorem allRegistered_step_iff (hs : AllRegistered j s)
    (h : s.step c j cfg label = some t) : AllRegistered j t ↔ s.Spares label := by
  cases effect_of_steps (steps_of_step h) with
  | quiet hnone hstore hlive =>
      refine iff_of_true ?_ (by simp [Spares, hnone])
      intro id hid
      rw [hstore]
      exact hs id (hlive id hid)
  | registered hnone id hregistered hothers hlive =>
      refine iff_of_true ?_ (by simp [Spares, hnone])
      intro other hother
      by_cases hid : other = id
      · exact hid ▸ hregistered
      · exact hothers other (hs other (hlive other hid hother))
  | deregistered hnone id hstore hdead hlive =>
      refine iff_of_true ?_ (by simp [Spares, hnone])
      intro other hother
      rw [hstore, registered_deregister_iff]
      refine ⟨?_, hs other (hlive other hother)⟩
      rintro rfl
      exact hdead hother
  | left name hleft hstore hlive =>
      have hspares : s.Spares label ↔ ¬ s.Live name := by simp [Spares, hleft]
      rw [hspares]
      constructor
      · intro ht hname
        have hgone := ht name ((hlive name).mpr hname)
        rw [hstore, registered_deregister_iff] at hgone
        exact hgone.1 rfl
      · intro hname id hid
        rw [hstore, registered_deregister_iff]
        refine ⟨?_, hs id ((hlive id).mp hid)⟩
        rintro rfl
        exact hname ((hlive id).mp hid)

/-! ## Discovery finds the live nodes -/

/-- A call of `DiscoverPeers` that is under way has not missed the node. -/
def Finds (caller id : String) (s : System Coord) : Prop :=
  ∀ scan, (s.processes caller).discovery = some scan →
    scan.Covers (nodeKey id) (Lists id)

private theorem finds_update {caller id other : String} {p : Process Coord} (hs : Finds caller other s)
    (hp : t.processes = Function.update s.processes id p)
    (hcall : id = caller → ∀ scan, p.discovery = some scan →
      scan.Covers (nodeKey other) (Lists other)) : Finds caller other t := by
  intro scan hscan
  by_cases hid : caller = id
  · subst hid
    rw [hp, Function.update_self] at hscan
    exact hcall rfl scan hscan
  · rw [hp, Function.update_of_ne hid] at hscan
    exact hs scan hscan

theorem finds_step {caller id : String} (hs : Finds caller id s)
    (hregistered : Registered j s.store id) (h : s.step c j cfg label = some t) :
    Finds caller id t := by
  have hkept : ∀ {other}, other = caller →
      ∀ scan, (s.processes other).discovery = some scan →
        scan.Covers (nodeKey id) (Lists id) := by
    rintro other rfl
    exact hs
  cases steps_of_step h with
  | mesh | start | register | setOnLeave | deregister => exact finds_update hs rfl hkept
  | discover other =>
      refine finds_update hs rfl fun _ scan hscan => ?_
      cases hscan
      exact covers_discoverPeers hregistered
  | get other scan scan' hscan hnext =>
      refine finds_update hs rfl fun hother scan'' hscan'' => ?_
      cases hscan''
      exact covers_next hregistered (hkept hother scan hscan) hnext
  | endDiscovery | stop | leave | crash =>
      refine finds_update hs rfl fun _ scan hscan => ?_
      cases hscan

/--
Registrations outlive the death of a predecessor exactly if no leave callback
runs for a node between its latest `Register` and its own stop or failure.  A
call of `DiscoverPeers` that is made during the life of a node then returns it.
-/
theorem registration_outlives_iff (c : Membership.Codec Coord) (j : Marshaller NodeRegistration)
    (cfg : String → Config) (store : MemoryObjectStore) (labels : List Label) (t : System Coord)
    (hrun : exec (step c j cfg) (initial store) labels = some t) :
    ((∀ before after s, labels = before ++ after →
        exec (step c j cfg) (initial store) before = some s →
        ∀ id, s.Live id → Registered j s.store id) ↔
      Along (step c j cfg) Spares (initial store) labels) ∧
    (Along (step c j cfg) Spares (initial store) labels →
      ∀ before call s caller id peers, labels = before ++ call →
        exec (step c j cfg) (initial store) before = some s →
        (s.processes caller).discovery = none →
        Along (step c j cfg) (fun s _ => s.Live id) s call →
        (t.processes caller).discovery = some ⟨[], peers⟩ → ∃ reg ∈ peers, reg.nodeID = id) := by
  constructor
  · exact always_iff_along (AllRegistered j) (fun s _ t hs h => allRegistered_step_iff hs h)
      (allRegistered_initial store) hrun
  · rintro hspares before call s caller id peers rfl hbefore hidle hlive hdone
    rw [exec_append_of_eq_some hbefore] at hrun
    obtain ⟨hfirst, hthen⟩ := (along_append hbefore).mp hspares
    have hregistered : AllRegistered j s :=
      exec_invariant_of_along (AllRegistered j)
        (fun _ _ _ hs hstep h => (allRegistered_step_iff hs h).mpr hstep)
        (allRegistered_initial store) hfirst hbefore
    have hend := exec_invariant_of_along (fun s => AllRegistered j s ∧ Finds caller id s)
      (fun _ _ _ hs hstep h => ⟨(allRegistered_step_iff hs.1 h).mpr hstep.1,
        finds_step hs.2 (hs.1 id hstep.2) h⟩)
      ⟨hregistered, fun scan hscan => by simp [hidle] at hscan⟩ (hthen.and hlive) hrun
    exact (hend.2 _ hdone).resolve_left (by simp)

/-! ## A restart -/

def sampleConfig (_ : String) : Config := ⟨"10.0.0.1", 7946, ⟨0, 0, 0, 0⟩⟩

def sampleRegistrations : List NodeRegistration :=
  [stamped 1 (registration "p" (sampleConfig "p")), stamped 1 (registration "n" (sampleConfig "n")),
    stamped 2 (registration "n" (sampleConfig "n"))]

def sampleCodec : Marshaller NodeRegistration := .ofList sampleRegistrations (by decide)

def comeUp (id : String) (now : Nat) : List Label :=
  List.replicate 5 (.mesh id .startup) ++ [.start id, .register id now]

def noticeLeave : List Label :=
  [.mesh "p" (.notifyLeave ⟨"n", "10.0.0.1", []⟩), .mesh "p" (.handle [] .insertion)]

def restartAfterCleanup : List Label :=
  -- `n` comes up, fails, is cleaned up and comes up again
  comeUp "p" 1 ++ [.setOnLeave "p"] ++ comeUp "n" 1 ++ [.crash "n"] ++ noticeLeave ++
    [.mesh "p" (.handle [] .insertion)] ++ comeUp "n" 2

def restartBeforeCleanup : List Label :=
  -- `n` is cleaned up after it has come up again
  comeUp "p" 1 ++ [.setOnLeave "p"] ++ comeUp "n" 1 ++ [.crash "n"] ++ noticeLeave ++
    comeUp "n" 2 ++ [.mesh "p" (.handle [] .insertion)]

theorem registration_outlives_restartAfterCleanup :
    ∃ (t : System Unit) (peers : List NodeRegistration),
      exec (step Mesh.plainCodec sampleCodec sampleConfig) (initial .empty)
        (restartAfterCleanup ++ [.discover "p", .get "p", .get "p"]) = some t ∧
      (t.processes "p").discovery = some ⟨[], peers⟩ ∧ ∃ reg ∈ peers, reg.nodeID = "n" := by
  have hsome : (exec (step Mesh.plainCodec sampleCodec sampleConfig) (initial .empty)
      restartAfterCleanup).isSome := by
    decide
  obtain ⟨s, hs⟩ := Option.isSome_iff_exists.mp hsome
  have hrest : ∀ s : System Unit,
      exec (step Mesh.plainCodec sampleCodec sampleConfig) (initial .empty)
        restartAfterCleanup = some s →
      (s.processes "p").discovery.isNone ∧
      Along (step Mesh.plainCodec sampleCodec sampleConfig) (fun s _ => s.Live "n") s
        [.discover "p", .get "p", .get "p"] ∧
      (exec (step Mesh.plainCodec sampleCodec sampleConfig) s
        [.discover "p", .get "p", .get "p"]).map (fun t => (t.processes "p").discovery) =
        some (some ⟨[], [stamped 2 (registration "n" (sampleConfig "n")),
          stamped 1 (registration "p" (sampleConfig "p"))]⟩) := by
    decide
  obtain ⟨hidle, hlive, hend⟩ := hrest s hs
  obtain ⟨t, ht, hdone⟩ := Option.map_eq_some_iff.mp hend
  have hrun := exec_append_eq_some.mpr ⟨s, hs, ht⟩
  refine ⟨t, _, hrun, hdone, ?_⟩
  exact (registration_outlives_iff Mesh.plainCodec sampleCodec sampleConfig .empty _ t hrun).2
    (by decide) _ _ s "p" "n" _ rfl hs (Option.isNone_iff_eq_none.mp hidle) hlive hdone

/-- `n` is live and not registered, and a complete call of `DiscoverPeers` misses it. -/
theorem restartBeforeCleanup_unregistered :
    (exec (step Mesh.plainCodec sampleCodec sampleConfig) (initial .empty : System Unit)
      (restartBeforeCleanup ++ [.discover "p", .get "p"])).map
        (fun t => (decide (t.Live "n"), t.store.contents (nodeKey "n"),
          (t.processes "p").discovery)) =
      some (true, none,
        some ⟨[], [stamped 1 (registration "p" (sampleConfig "p"))]⟩) := by
  decide

end System

end GossipMesh.S3nat
