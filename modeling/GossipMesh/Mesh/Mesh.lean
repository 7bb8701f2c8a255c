import GossipMesh.Foundation.Transition
import GossipMesh.Mesh.Membership
import GossipMesh.Overlay.Reclassify

/-!
# Joining the mesh

`Join` starts the membership layer, the transport and the overlay, and only
then sets the callback that keeps the overlay in step with the membership.
Memberlist reports its first peers as soon as it exists, so their events can
come anywhere between these steps.
-/

namespace GossipMesh

open GossipMesh.Foundation

def joinHostPort (host port : String) : String :=
  if ':' ∈ host.toList then "[" ++ host ++ "]:" ++ port else host ++ ":" ++ port

inductive Stage where
  | join
  | created
  | started
  | transport
  | overlay
  | wired
  | failed
  deriving DecidableEq

structure MeshConfig where
  nodeID : String
  overlay : OverlayConfig

structure Mesh (Coord : Type) where
  membership : Membership Coord
  stage : Stage
  overlay : Option Overlay
  -- the argument of the last call of `Reclassify`
  classifiedFrom : List PeerInfo

inductive MeshLabel where
  | startup
  | startupFails
  | setOnLeave
  | notifyJoin (node : Membership.MemberNode) (distance : Int64)
  | notifyUpdate (node : Membership.MemberNode) (distance : Int64)
  | notifyLeave (node : Membership.MemberNode)
  | handle (order : List String) (sorter : SortSlice)

namespace Mesh

variable {Coord : Type}

def new : Mesh Coord := ⟨.new, .join, none, []⟩

/-- What the callback of `Join` makes of a peer. -/
def overlayPeer (p : Membership.PeerInfo Coord) : PeerInfo where
  nodeID := p.nodeID
  addr := joinHostPort p.nodeMeta.quicAddr (toString p.nodeMeta.quicPort)
  rtt := p.rtt

def startup (cfg : MeshConfig) (m : Mesh Coord) : Option (Mesh Coord) :=
  match m.stage with
  | .join => some { m with stage := .created }
  | .created => some { m with stage := .started }
  | .started => some { m with stage := .transport }
  | .transport =>
      some { m with
        stage := .overlay
        overlay := some (.new cfg.nodeID cfg.overlay) }
  | .overlay =>
      some { m with stage := .wired, membership := m.membership.setOnChange }
  | .wired | .failed => none

/-- `Membership.Start` or `transport.New` returns an error. -/
def startupFails (m : Mesh Coord) : Option (Mesh Coord) :=
  match m.stage with
  | .join | .created | .started => some { m with stage := .failed }
  | .transport | .overlay | .wired | .failed => none

def deliver (m : Mesh Coord) (handler : Option (Membership.Handler Coord)) :
    Option (Mesh Coord) :=
  if m.stage ≠ .join ∧ m.membership.handler.isNone then
    match handler with
    | none => some m
    | some h => some { m with membership := { m.membership with handler := some h } }
  else none

def handle (m : Mesh Coord) (order : List String) (sorter : SortSlice) :
    Option (Mesh Coord) := do
  let (membership, called) ← m.membership.advance order
  match called with
  | none => some { m with membership := membership }
  | some peers =>
      let overlayPeers := peers.map overlayPeer
      let overlay ← m.overlay
      let overlay ← overlay.reclassify sorter overlayPeers
      some { m with
        membership := membership
        overlay := some overlay
        classifiedFrom := overlayPeers }

def step (c : Membership.Codec Coord) (cfg : MeshConfig) (m : Mesh Coord) :
    MeshLabel → Option (Mesh Coord)
  | .startup => m.startup cfg
  | .startupFails => m.startupFails
  | .setOnLeave => some { m with membership := m.membership.setOnLeave }
  | .notifyJoin node distance => m.deliver (Membership.notifyJoin c node distance)
  | .notifyUpdate node distance =>
      m.deliver (Membership.notifyUpdate c node distance)
  | .notifyLeave node => m.deliver (some (Membership.notifyLeave node))
  | .handle order sorter => m.handle order sorter

/-- The outcomes of `step`, but for the one that sets the callback. -/
inductive Steps (m : Mesh Coord) : Mesh Coord → Prop
  | unwired (stage : Stage) (overlay : Option Overlay)
      (hbefore : m.stage ≠ .wired) (hafter : stage ≠ .wired) :
      Steps m { m with stage := stage, overlay := overlay }
  | setOnLeave : Steps m { m with membership := m.membership.setOnLeave }
  | ignored : Steps m m
  | store (info : Membership.PeerInfo Coord) (halive : info.alive = true) :
      Steps m { m with
        membership := { m.membership with handler := some (.store info) } }
  | remove (name : String) :
      Steps m { m with
        membership := { m.membership with handler := some (.remove name) } }
  | advance (membership : Membership Coord)
      (hadvances : m.membership.Advances membership none) :
      Steps m { m with membership := membership }
  | classify (membership : Membership Coord)
      (peers : List (Membership.PeerInfo Coord)) (overlay : Overlay)
      (hadvances : m.membership.Advances membership (some peers)) :
      Steps m { m with
        membership := membership
        overlay := some overlay
        classifiedFrom := peers.map overlayPeer }

section Inversion

variable {c : Membership.Codec Coord} {cfg : MeshConfig} {m m' : Mesh Coord}

theorem steps_of_startup (hstage : m.stage ≠ .overlay)
    (h : m.startup cfg = some m') : m.Steps m' := by
  unfold startup at h
  split at h
  case h_4 hnow =>
      cases h
      exact .unwired .overlay _ (by simp [hnow]) (by decide)
  case h_5 hnow => exact (hstage hnow).elim
  case h_6 | h_7 => cases h
  all_goals
    cases h
    exact .unwired _ m.overlay (by simp [*]) (by decide)

private theorem steps_of_store {node : Membership.MemberNode} {distance : Int64}
    (h : m.deliver ((Membership.peerInfo c node distance).map .store) = some m') :
    m.Steps m' := by
  unfold deliver at h
  split at h
  · cases hinfo : Membership.peerInfo c node distance with
    | none =>
        simp only [hinfo, Option.map_none] at h
        cases h
        exact .ignored
    | some info =>
        simp only [hinfo, Option.map_some] at h
        cases h
        exact .store info (Membership.peerInfo_alive hinfo)
  · cases h

private theorem steps_of_handle {order : List String} {sorter : SortSlice}
    (h : m.handle order sorter = some m') : m.Steps m' := by
  simp only [handle, Option.bind_eq_bind, Option.bind_eq_some_iff] at h
  obtain ⟨⟨membership, called⟩, hadvance, h⟩ := h
  have hadvances := Membership.advances_of_advance hadvance
  cases called with
  | none =>
      cases h
      exact .advance membership hadvances
  | some peers =>
      simp only [Option.bind_eq_some_iff] at h
      obtain ⟨before, -, overlay, -, h⟩ := h
      cases h
      exact .classify membership peers overlay hadvances

theorem steps_of_step {l : MeshLabel} (h : m.step c cfg l = some m') :
    (l = .startup ∧ m.stage = .overlay ∧
      m' = { m with stage := .wired, membership := m.membership.setOnChange }) ∨
    ¬ (l = .startup ∧ m.stage = .overlay) ∧ m.Steps m' := by
  cases l with
  | startup =>
      by_cases hstage : m.stage = .overlay
      · refine .inl ⟨rfl, hstage, ?_⟩
        simp only [step, startup, hstage] at h
        exact (Option.some.inj h).symm
      · exact .inr ⟨fun hwire => hstage hwire.2, steps_of_startup hstage h⟩
  | startupFails =>
      refine .inr ⟨by simp, ?_⟩
      simp only [step, startupFails] at h
      split at h
      case h_4 | h_5 | h_6 | h_7 => cases h
      all_goals
        cases h
        exact .unwired .failed m.overlay (by simp [*]) (by decide)
  | setOnLeave =>
      cases h
      exact .inr ⟨by simp, .setOnLeave⟩
  | notifyJoin node distance => exact .inr ⟨by simp, steps_of_store h⟩
  | notifyUpdate node distance => exact .inr ⟨by simp, steps_of_store h⟩
  | notifyLeave node =>
      refine .inr ⟨by simp, ?_⟩
      simp only [step, deliver, Membership.notifyLeave] at h
      split at h
      · cases h
        exact .remove node.name
      · cases h
  | handle order sorter => exact .inr ⟨by simp, steps_of_handle h⟩

end Inversion

/-! ## The overlay follows the membership -/

/-- The overlay was last classified from the peers `LivePeers` returns now. -/
def InStep (m : Mesh Coord) : Prop :=
  ∀ order, m.membership.IterationOrder order →
    ∀ q, q ∈ m.classifiedFrom ↔ q ∈ (m.membership.livePeers order).map overlayPeer

/-- The callback is set and no event handler is running. -/
def Settled (m : Mesh Coord) : Prop :=
  m.membership.onChange = true ∧ m.membership.handler = none

structure Sound (m : Mesh Coord) : Prop where
  membership : m.membership.Consistent
  wired : m.membership.onChange = true → m.stage = .wired
  unclassified : m.membership.onChange = false → m.classifiedFrom = []

theorem Sound.new : Sound (.new : Mesh Coord) :=
  ⟨.new, by rintro ⟨⟩, fun _ => rfl⟩

theorem Sound.wire {m : Mesh Coord} (h : m.Sound) :
    Sound { m with stage := .wired, membership := m.membership.setOnChange } :=
  ⟨h.membership.setOnChange, fun _ => rfl, by rintro ⟨⟩⟩

private theorem advances_onChange {m m' : Membership Coord}
    {called : Option (List (Membership.PeerInfo Coord))}
    (h : m.Advances m' called) : m'.onChange = m.onChange := by
  cases h <;> rfl

theorem Sound.steps {m m' : Mesh Coord} (h : m.Sound) (hsteps : m.Steps m') :
    m'.Sound := by
  cases hsteps with
  | unwired stage overlay hbefore hafter =>
      exact ⟨h.membership, fun hset => (hbefore (h.wired hset)).elim,
        h.unclassified⟩
  | setOnLeave => exact ⟨h.membership.setOnLeave, h.wired, h.unclassified⟩
  | ignored => exact h
  | store info halive => exact ⟨h.membership.store halive, h.wired, h.unclassified⟩
  | remove name => exact ⟨h.membership.remove name, h.wired, h.unclassified⟩
  | advance membership hadvances =>
      have hset := advances_onChange hadvances
      exact ⟨h.membership.advance hadvances, fun hon => h.wired (hset ▸ hon),
        fun hoff => h.unclassified (hset ▸ hoff)⟩
  | classify membership peers overlay hadvances =>
      have hset := advances_onChange hadvances
      refine ⟨h.membership.advance hadvances, fun hon => h.wired (hset ▸ hon),
        fun hoff => ?_⟩
      cases hadvances with
      | onChange _ hhandler =>
          have hon := (h.membership.calling peers hhandler).1
          rw [hset, hon] at hoff
          cases hoff

theorem inStep_of_steps {m m' : Mesh Coord} (h : m.Sound)
    (hbefore : m.Settled → m.InStep) (hsteps : m.Steps m') :
    m'.Settled → m'.InStep := by
  cases hsteps with
  | unwired stage overlay hunwired hafter =>
      exact fun hsettled => (hunwired (h.wired hsettled.1)).elim
  | setOnLeave | ignored => exact hbefore
  | store | remove =>
      rintro ⟨-, hidle⟩
      cases hidle
  | advance membership hadvances =>
      rintro ⟨hset, hidle⟩
      cases hadvances with
      | notifyChange =>
          simp only at hset hidle
          rw [if_pos hset] at hidle
          cases hidle
      | _ => cases hidle
  | classify membership peers overlay hadvances =>
      cases hadvances with
      | onChange _ hhandler =>
          obtain ⟨-, order, horder, rfl⟩ := h.membership.calling peers hhandler
          intro _ order' horder' q
          simp only [List.mem_map]
          have hsame := fun p => (Membership.mem_livePeers h.membership horder).trans
            (Membership.mem_livePeers h.membership (p := p) horder').symm
          exact exists_congr fun p => and_congr_left' (hsame p)

theorem inStep_of_wire_iff {m : Mesh Coord} (h : m.Sound)
    (hstage : m.stage = .overlay) :
    InStep { m with stage := .wired, membership := m.membership.setOnChange } ↔
      m.membership.peers.keys = ∅ := by
  have hempty : m.classifiedFrom = [] := by
    refine h.unclassified (Bool.eq_false_iff.mpr fun hset => ?_)
    simp [h.wired hset] at hstage
  constructor
  · intro hin
    have horder : m.membership.IterationOrder m.membership.peers.keys.toList :=
      ⟨Finset.nodup_toList _, Finset.toList_toFinset _⟩
    rw [Finset.eq_empty_iff_forall_notMem]
    intro name hname
    obtain ⟨p, hp⟩ := Finmap.mem_iff.mp (Finmap.mem_keys.mp hname)
    have hlive := (Membership.mem_livePeers h.membership horder).mpr ⟨name, hp⟩
    have hclassified := (hin _ horder (overlayPeer p)).mpr
      (List.mem_map_of_mem hlive)
    simp [hempty] at hclassified
  · intro hnone order horder q
    have hnil : order = [] := by
      rw [← List.toFinset_eq_empty_iff, horder.2]
      exact hnone
    simp [hempty, hnil, Membership.livePeers]

/-- The callback is set while nobody is known, or under a running handler. -/
def SetInTime (m : Mesh Coord) : MeshLabel → Prop
  | .startup => m.stage = .overlay →
      m.membership.peers.keys = ∅ ∨ m.membership.handler.isSome = true
  | _ => True

instance decidableSetInTime (m : Mesh Coord) (l : MeshLabel) :
    Decidable (m.SetInTime l) := by
  unfold SetInTime
  split <;> infer_instance

/-- A step keeps a settled mesh in step exactly if it does not set the callback too late. -/
theorem inStep_step_iff {c : Membership.Codec Coord} {cfg : MeshConfig} {s t : Mesh Coord}
    {l : MeshLabel} (hs : s.Sound) (hfollows : s.Settled → s.InStep)
    (hstep : s.step c cfg l = some t) :
    t.Sound ∧ (t.Settled → t.InStep) ↔ s.SetInTime l := by
  rcases steps_of_step hstep with ⟨rfl, hstage, rfl⟩ | ⟨hother, hsteps⟩
  · rw [and_iff_right hs.wire]
    simp only [SetInTime, hstage, true_implies]
    rw [← inStep_of_wire_iff hs hstage]
    constructor
    · intro h
      by_cases hidle : s.membership.handler = none
      · exact .inl (h ⟨rfl, hidle⟩)
      · exact .inr (Option.isSome_iff_ne_none.mpr hidle)
    · rintro (hin | hrunning) ⟨-, hidle⟩
      · exact hin
      · simp only [Membership.setOnChange] at hidle
        simp [hidle] at hrunning
  · have htime : SetInTime s l := by
      cases l with
      | startup => exact fun hstage => (hother ⟨rfl, hstage⟩).elim
      | _ => trivial
    simp only [htime, iff_true]
    exact ⟨hs.steps hsteps, inStep_of_steps hs hfollows hsteps⟩

/--
In every state of a run in which the callback is set and no handler is running
the overlay is in step with the membership exactly if the callback is set in
time.
-/
theorem inStep_always_iff_setInTime (c : Membership.Codec Coord)
    (cfg : MeshConfig) {labels : List MeshLabel} {m : Mesh Coord}
    (hrun : exec (step c cfg) new labels = some m) :
    (∀ before after u, labels = before ++ after →
      exec (step c cfg) new before = some u → u.Settled → u.InStep) ↔
    Along (step c cfg) SetInTime new labels := by
  have hsound : ∀ before u, exec (step c cfg) new before = some u → u.Sound := by
    intro before u hbefore
    refine exec_invariant Sound (fun s l t hs hstep => ?_) .new hbefore
    rcases steps_of_step hstep with ⟨-, -, rfl⟩ | ⟨-, hsteps⟩
    · exact hs.wire
    · exact hs.steps hsteps
  have hexact := always_iff_along (P := SetInTime)
    (fun s => s.Sound ∧ (s.Settled → s.InStep)) ?_ ⟨.new, by rintro ⟨⟨⟩, -⟩⟩ hrun
  · rw [← hexact]
    constructor
    · exact fun h before after u heq hbefore =>
        ⟨hsound before u hbefore, h before after u heq hbefore⟩
    · exact fun h before after u heq hbefore => (h before after u heq hbefore).2
  · rintro s l t ⟨hs, hfollows⟩ hstep
    exact inStep_step_iff hs hfollows hstep

/-! ## Two startups -/

def plainCodec : Membership.Codec Unit where
  decodeMeta _ := some ⟨"b", none, "10.0.0.2", 7947, []⟩
  isValid _ := true

def nodeB : Membership.MemberNode := ⟨"b", "10.0.0.2", []⟩

def plainConfig : MeshConfig := ⟨"a", ⟨0, 0, 0, 0⟩⟩

def joinDuringWiring : List MeshLabel :=
  -- `b` joins just before the callback is set, and its handler finds it set
  [.startup, .startup, .startup, .startup, .notifyJoin nodeB 0, .startup,
   .handle [] .insertion, .handle [] .insertion, .handle ["b"] .insertion,
   .handle [] .insertion]

theorem inStep_always_iff_setInTime_joinDuringWiring :
    ∃ m, exec (step plainCodec plainConfig) new joinDuringWiring = some m ∧
      m.classifiedFrom.map PeerInfo.nodeID = ["b"] ∧ m.Settled ∧ m.InStep := by
  have hsome : (exec (step plainCodec plainConfig) new
      joinDuringWiring).isSome := by decide
  obtain ⟨m, hrun⟩ := Option.isSome_iff_exists.mp hsome
  have hend : ∀ m, exec (step plainCodec plainConfig) new joinDuringWiring =
      some m → m.classifiedFrom.map PeerInfo.nodeID = ["b"] ∧
      m.membership.onChange = true ∧ m.membership.handler.isNone = true := by
    decide
  obtain ⟨hnames, hset, hidle⟩ := hend m hrun
  have hsettled : m.Settled := ⟨hset, Option.isNone_iff_eq_none.mp hidle⟩
  exact ⟨m, hrun, hnames, hsettled,
    (inStep_always_iff_setInTime plainCodec plainConfig hrun).mpr (by decide)
      joinDuringWiring [] m (by simp) hrun hsettled⟩

def joinBeforeWiring : List MeshLabel :=
  -- the seed join finds `b` while the transport is being started
  [.startup, .startup, .notifyJoin nodeB 0, .handle [] .insertion,
   .handle [] .insertion, .startup, .startup, .startup]

/-- `b` is alive, `Join` is done, and the overlay has never heard of `b`. -/
theorem joinBeforeWiring_not_inStep :
    ∃ m, exec (step plainCodec plainConfig) new joinBeforeWiring = some m ∧
      m.Settled ∧ m.classifiedFrom = [] ∧
      (m.membership.livePeers ["b"]).map (fun p => p.nodeID) = ["b"] ∧
      ¬ m.InStep := by
  have hsome : (exec (step plainCodec plainConfig) new
      joinBeforeWiring).isSome := by decide
  obtain ⟨m, hrun⟩ := Option.isSome_iff_exists.mp hsome
  have hend : ∀ m, exec (step plainCodec plainConfig) new joinBeforeWiring =
      some m → m.membership.onChange = true ∧ m.membership.handler.isNone = true ∧
      m.classifiedFrom = [] ∧ m.membership.IterationOrder ["b"] ∧
      (m.membership.livePeers ["b"]).map (fun p => p.nodeID) = ["b"] := by decide
  obtain ⟨hset, hidle, hempty, horder, hlive⟩ := hend m hrun
  refine ⟨m, hrun, ⟨hset, Option.isNone_iff_eq_none.mp hidle⟩, hempty, hlive,
    fun hin => ?_⟩
  obtain ⟨p, hp, -⟩ := List.mem_map.mp (hlive ▸ List.mem_singleton_self "b")
  have hclassified := (hin ["b"] horder (overlayPeer p)).mpr
    (List.mem_map_of_mem hp)
  simp [hempty] at hclassified

end Mesh

end GossipMesh
