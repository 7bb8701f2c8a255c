import GossipMesh.Mesh.Meta
import GossipMesh.Mesh.View

/-!
# Metadata on its way to a peer

Memberlist asks a node for its metadata when it is created and whenever it is
told of an update, and reports it to a peer in joins and updates.  It is taken
to report anything the node ever answered, at any time and in any order.
-/

namespace GossipMesh

open GossipMesh.Foundation

variable {Coord : Type}

structure Advertising (Coord : Type) where
  sender : Membership.MetaThreads Coord
  -- what the node had whenever memberlist asked for it
  told : List (Membership.NodeMeta Coord)
  receiver : Mesh Coord

inductive AdvertisingLabel (Coord : Type) where
  | sender (l : Nat × Membership.MetaChoice Coord)
  | receiver (l : MeshLabel)
  -- reports of the node carry its `k`th answer
  | notifyJoin (k : Nat) (addr : String) (distance : Int64)
  | notifyUpdate (k : Nat) (addr : String) (distance : Int64)

def MeshLabel.elsewhere (name : String) : MeshLabel → Bool
  | .notifyJoin node _ | .notifyUpdate node _ => node.name ≠ name
  | _ => true

namespace Advertising

section Step

variable (codec : Membership.MetaCodec Coord) (c : Membership.Codec Coord) (cfg : MeshConfig)
  (name : String)

def report (addr : String) (nodeMeta : Membership.NodeMeta Coord) : Membership.MemberNode :=
  -- memberlist takes a nil for empty metadata
  ⟨name, addr, (codec.answer nodeMeta).getD []⟩

def start (coordinate : Coord) (nodeMeta : Membership.NodeMeta Coord)
    (calls : List (Membership.MetaCall Coord)) : Advertising Coord where
  sender := .start codec true coordinate nodeMeta calls
  told := [Membership.MetaThreads.seed coordinate nodeMeta]
  receiver := .new

def receive (w : Advertising Coord) (l : MeshLabel) : Option (Advertising Coord) :=
  (w.receiver.step c cfg l).map fun receiver => { w with receiver := receiver }

def step (w : Advertising Coord) : AdvertisingLabel Coord → Option (Advertising Coord)
  | .sender l =>
      (Membership.MetaThreads.step codec w.sender l).map fun sender =>
        { w with
          sender := sender
          told := match w.sender.routines[l.1]? with
            | some .updateNode => w.told ++ [w.sender.memory.nodeMeta]
            | _ => w.told }
  | .receiver l => if l.elsewhere name then w.receive c cfg l else none
  | .notifyJoin k addr distance =>
      w.told[k]?.bind fun nodeMeta =>
        w.receive c cfg (.notifyJoin (report codec name addr nodeMeta) distance)
  | .notifyUpdate k addr distance =>
      w.told[k]?.bind fun nodeMeta =>
        w.receive c cfg (.notifyUpdate (report codec name addr nodeMeta) distance)

end Step

structure Carries (codec : Membership.MetaCodec Coord) (c : Membership.Codec Coord) : Prop where
  address : ∀ nodeMeta data, codec.encode nodeMeta = some data →
    ∃ decoded, c.decodeMeta data = some decoded ∧
      decoded.quicAddr = nodeMeta.quicAddr ∧ decoded.quicPort = nodeMeta.quicPort
  empty : c.decodeMeta [] = none

end Advertising

/-! ## The sender -/

namespace Membership

def MetaUpdate.Preserves (P : NodeMeta Coord → Prop) (update : MetaUpdate Coord) : Prop :=
  ∀ coordinate nodeMeta, P nodeMeta → P (update.run coordinate nodeMeta)

/-- What a caller has in hand has the property, and its update keeps it. -/
def MetaPoint.Has (P : NodeMeta Coord → Prop) : MetaPoint Coord → Prop
  | .load update => update.Preserves P
  | .apply update _ nodeMeta => update.Preserves P ∧ P nodeMeta
  | .swap update _ _ updated => update.Preserves P ∧ P updated
  | _ => True

private theorem Updates.has {codec : MetaCodec Coord} {m m' : MetaMemory Coord} {p p' : MetaPoint Coord}
    {P : NodeMeta Coord → Prop} (h : Updates codec m p m' p')
    (hrefresh : MetaUpdate.refresh.Preserves P) (hm : P m.nodeMeta) (hp : p.Has P) :
    P m'.nodeMeta ∧ p'.Has P := by
  cases h with
  | moved => exact ⟨hm, hrefresh⟩
  | load update => exact ⟨hm, hp, hm⟩
  | apply update old nodeMeta => exact ⟨hm, hp.1, hp.1 m.coordinate nodeMeta hp.2⟩
  | swap update read updated =>
      refine ⟨hp.2, ?_⟩
      split <;> trivial
  | retry update old read updated hne => exact ⟨hm, hp.1⟩
  | _ => exact ⟨hm, trivial⟩

end Membership

namespace Advertising

variable {codec : Membership.MetaCodec Coord} {c : Membership.Codec Coord} {cfg : MeshConfig}
  {name : String} {w w' : Advertising Coord} {P : Membership.NodeMeta Coord → Prop}

structure Had (P : Membership.NodeMeta Coord → Prop) (w : Advertising Coord) : Prop where
  now : P w.sender.memory.nodeMeta
  told : ∀ nodeMeta ∈ w.told, P nodeMeta
  callers : ∀ p ∈ w.sender.routines, p.Has P

theorem Had.sender (hw : w.Had P) (hrefresh : Membership.MetaUpdate.refresh.Preserves P)
    {l : Nat × Membership.MetaChoice Coord}
    (h : w.step codec c cfg name (.sender l) = some w') : w'.Had P := by
  obtain ⟨sender, hsender, rfl⟩ := Option.map_eq_some_iff.mp h
  obtain ⟨before, p, after, p', hsplit, hup, hafter⟩ :=
    Membership.MetaThreads.updates_of_step hsender
  have hcallers := hw.callers
  rw [hsplit] at hcallers
  obtain ⟨hnow, hp'⟩ := hup.has hrefresh hw.now (hcallers p (by simp))
  refine ⟨hnow, fun nodeMeta hmem => ?_, fun q hq => ?_⟩
  · dsimp only at hmem
    split at hmem
    · rcases List.mem_append.mp hmem with hmem | hmem
      · exact hw.told nodeMeta hmem
      · rw [List.mem_singleton.mp hmem]
        exact hw.now
    · exact hw.told nodeMeta hmem
  · change q ∈ sender.routines at hq
    rw [hafter] at hq
    rcases Threads.mem_of_move p hq with rfl | hq
    · exact hp'
    · exact hcallers q hq

/-! ## The receiver -/

/-- Of the metadata told, some that fitted has the address the peer has. -/
def Backed (codec : Membership.MetaCodec Coord) (told : List (Membership.NodeMeta Coord))
    (p : Membership.PeerInfo Coord) : Prop :=
  ∃ nodeMeta ∈ told, (codec.answer nodeMeta).isSome ∧
    p.nodeMeta.quicAddr = nodeMeta.quicAddr ∧ p.nodeMeta.quicPort = nodeMeta.quicPort

/-- What the peer knows of the node is backed, also once the handler in progress is done. -/
structure Justified (codec : Membership.MetaCodec Coord) (name : String) (w : Advertising Coord) :
    Prop where
  now : ∀ p, w.receiver.membership.peers.lookup name = some p → Backed codec w.told p
  after : ∀ p, w.receiver.membership.peersAfter.lookup name = some p → Backed codec w.told p

theorem news_elsewhere {l : MeshLabel} (h : l.elsewhere name = true)
    {known : Option (Membership.PeerInfo Coord)} {p : Membership.PeerInfo Coord}
    (hp : Membership.news c name known l = some p) : known = some p := by
  cases l with
  | notifyJoin node distance | notifyUpdate node distance =>
      have hne : node.name ≠ name := by simpa [MeshLabel.elsewhere] using h
      simpa [Membership.news, hne] using hp
  | notifyLeave node =>
      simp only [Membership.news] at hp
      split at hp
      · cases hp
      · exact hp
  | startup | startupFails | setOnLeave | handle => exact hp

private theorem backed_of_report (hcarries : Carries codec c) {told : List (Membership.NodeMeta Coord)}
    {nodeMeta : Membership.NodeMeta Coord} (hmem : nodeMeta ∈ told) {addr : String}
    {distance : Int64} {p : Membership.PeerInfo Coord}
    (h : Membership.peerInfo c (report codec name addr nodeMeta) distance = some p) :
    Backed codec told p := by
  obtain ⟨decoded, hdecoded, rfl⟩ := Option.map_eq_some_iff.mp h
  cases hanswer : codec.answer nodeMeta with
  | none =>
      simp only [report, hanswer, Option.getD_none, hcarries.empty] at hdecoded
      cases hdecoded
  | some data =>
      obtain ⟨encoded, hencode, hfits⟩ := Option.bind_eq_some_iff.mp hanswer
      split at hfits
      · cases hfits
      · cases hfits
        obtain ⟨decoded', hdecoded', haddr, hport⟩ := hcarries.address nodeMeta data hencode
        simp only [report, hanswer, Option.getD_some, hdecoded'] at hdecoded
        cases hdecoded
        exact ⟨nodeMeta, hmem, by simp [hanswer], haddr, hport⟩

theorem Justified.receive (hw : w.Justified codec name) {l : MeshLabel}
    (hnews : ∀ p, Membership.news c name (w.receiver.membership.peersAfter.lookup name) l = some p →
      w.receiver.membership.peersAfter.lookup name = some p ∨ Backed codec w.told p)
    (h : w.receive c cfg l = some w') : w'.Justified codec name := by
  obtain ⟨receiver, hreceiver, rfl⟩ := Option.map_eq_some_iff.mp h
  refine ⟨fun p hp => ?_, fun p hp => ?_⟩
  · change receiver.membership.peers.lookup name = some p at hp
    rcases Mesh.peers_step hreceiver with hpeers | hpeers
    · exact hw.now p (hpeers ▸ hp)
    · exact hw.after p (hpeers ▸ hp)
  · change receiver.membership.peersAfter.lookup name = some p at hp
    rw [Mesh.lookup_step hreceiver] at hp
    rcases hnews p hp with hknown | hbacked
    · exact hw.after p hknown
    · exact hbacked

private theorem Justified.report (hcarries : Carries codec c) (hw : w.Justified codec name)
    {nodeMeta : Membership.NodeMeta Coord} (hmem : nodeMeta ∈ w.told) {addr : String}
    {distance : Int64} {l : MeshLabel}
    (hl : l = .notifyJoin (report codec name addr nodeMeta) distance ∨
      l = .notifyUpdate (report codec name addr nodeMeta) distance)
    (h : w.receive c cfg l = some w') : w'.Justified codec name := by
  refine hw.receive (fun p hp => ?_) h
  have hnews : (Membership.peerInfo c (Advertising.report codec name addr nodeMeta) distance).or
      (w.receiver.membership.peersAfter.lookup name) = some p := by
    rcases hl with rfl | rfl <;> simpa [Membership.news, Advertising.report] using hp
  rcases Option.or_eq_some_iff.mp hnews with hinfo | ⟨-, hknown⟩
  · exact .inr (backed_of_report hcarries hmem hinfo)
  · exact .inl hknown

theorem Justified.step (hcarries : Carries codec c) (hw : w.Justified codec name)
    {l : AdvertisingLabel Coord} (h : w.step codec c cfg name l = some w') :
    w'.Justified codec name := by
  cases l with
  | sender l =>
      obtain ⟨sender, -, rfl⟩ := Option.map_eq_some_iff.mp h
      have hbacked : ∀ p, Backed codec w.told p → Backed codec (match w.sender.routines[l.1]? with
          | some .updateNode => w.told ++ [w.sender.memory.nodeMeta]
          | _ => w.told) p := by
        rintro p ⟨nodeMeta, hmem, hrest⟩
        refine ⟨nodeMeta, ?_, hrest⟩
        split
        · exact List.mem_append_left _ hmem
        · exact hmem
      exact ⟨fun p hp => hbacked p (hw.now p hp), fun p hp => hbacked p (hw.after p hp)⟩
  | receiver l =>
      simp only [Advertising.step] at h
      split at h
      · next helsewhere => exact hw.receive (fun p hp => .inl (news_elsewhere helsewhere hp)) h
      · cases h
  | notifyJoin k addr distance =>
      obtain ⟨nodeMeta, hk, hreceive⟩ := Option.bind_eq_some_iff.mp h
      exact hw.report hcarries (List.mem_of_getElem? hk) (.inl rfl) hreceive
  | notifyUpdate k addr distance =>
      obtain ⟨nodeMeta, hk, hreceive⟩ := Option.bind_eq_some_iff.mp h
      exact hw.report hcarries (List.mem_of_getElem? hk) (.inr rfl) hreceive

/-! ## Both -/

theorem step_cases {l : AdvertisingLabel Coord} (h : w.step codec c cfg name l = some w') :
    ((∃ l', l = .sender l') ∧ w'.receiver = w.receiver) ∨
      ((∃ l', w.receiver.step c cfg l' = some w'.receiver) ∧
        w'.sender = w.sender ∧ w'.told = w.told) := by
  have hreceive : ∀ {l' : MeshLabel}, w.receive c cfg l' = some w' →
      (∃ l', w.receiver.step c cfg l' = some w'.receiver) ∧
        w'.sender = w.sender ∧ w'.told = w.told := by
    intro l' h'
    obtain ⟨receiver, hreceiver, rfl⟩ := Option.map_eq_some_iff.mp h'
    exact ⟨⟨l', hreceiver⟩, rfl, rfl⟩
  cases l with
  | sender l =>
      obtain ⟨sender, -, rfl⟩ := Option.map_eq_some_iff.mp h
      exact .inl ⟨⟨l, rfl⟩, rfl⟩
  | receiver l =>
      simp only [step] at h
      split at h
      · exact .inr (hreceive h)
      · cases h
  | notifyJoin k addr distance =>
      obtain ⟨nodeMeta, -, h'⟩ := Option.bind_eq_some_iff.mp h
      exact .inr (hreceive h')
  | notifyUpdate k addr distance =>
      obtain ⟨nodeMeta, -, h'⟩ := Option.bind_eq_some_iff.mp h
      exact .inr (hreceive h')

theorem Had.step (hw : w.Had P) (hrefresh : Membership.MetaUpdate.refresh.Preserves P)
    {l : AdvertisingLabel Coord} (h : w.step codec c cfg name l = some w') : w'.Had P := by
  rcases step_cases h with ⟨⟨l', rfl⟩, -⟩ | ⟨-, hsender, htold⟩
  · exact hw.sender hrefresh h
  · exact ⟨hsender ▸ hw.now, htold ▸ hw.told, hsender ▸ hw.callers⟩

private theorem sound_step (hw : w.receiver.Sound) {l : AdvertisingLabel Coord}
    (h : w.step codec c cfg name l = some w') : w'.receiver.Sound := by
  rcases step_cases h with ⟨-, hreceiver⟩ | ⟨⟨l', hreceiver⟩, -⟩
  · rwa [hreceiver]
  · exact hw.step hreceiver

private theorem had_start {coordinate : Coord} {nodeMeta : Membership.NodeMeta Coord}
    {calls : List (Membership.MetaCall Coord)}
    (hseed : P (Membership.MetaThreads.seed coordinate nodeMeta))
    (hcalls : ∀ call ∈ calls, call.point.Has P) :
    (start codec coordinate nodeMeta calls).Had P := by
  refine ⟨hseed, fun nodeMeta' hmem => ?_, fun p hp => ?_⟩
  · rw [List.mem_singleton.mp hmem]
    exact hseed
  · obtain ⟨call, hcall, rfl⟩ := List.mem_map.mp hp
    exact hcalls call hcall

/--
A peer that knows a node alive has for it the address of metadata the node has
had, small enough for memberlist, and with every property that the updates
preserve; a node whose metadata never fits is not known at all.  Updates,
pings and reports may interleave in any way.
-/
theorem peers_know_advertised (hcarries : Carries codec c) {coordinate : Coord}
    {nodeMeta : Membership.NodeMeta Coord} {calls : List (Membership.MetaCall Coord)}
    (hseed : P (Membership.MetaThreads.seed coordinate nodeMeta))
    (hrefresh : Membership.MetaUpdate.refresh.Preserves P)
    (hcalls : ∀ call ∈ calls, call.point.Has P) {labels : List (AdvertisingLabel Coord)}
    (hrun : exec (step codec c cfg name) (start codec coordinate nodeMeta calls) labels = some w) :
    (w.receiver.membership.isAlive name = false ∧ w.receiver.membership.addrForNode name = "") ∨
    (w.receiver.membership.isAlive name = true ∧
      ∃ nodeMeta ∈ w.told, P nodeMeta ∧ (codec.answer nodeMeta).isSome ∧
        w.receiver.membership.addrForNode name =
          joinHostPort nodeMeta.quicAddr (toString nodeMeta.quicPort)) := by
  have hhad : w.Had P := exec_invariant (Had P)
    (fun _ _ _ hw hstep => hw.step hrefresh hstep) (had_start hseed hcalls) hrun
  have hsound : w.receiver.Sound := exec_invariant (fun w => w.receiver.Sound)
    (fun _ _ _ hw hstep => sound_step hw hstep) Mesh.Sound.new hrun
  have hjustified : w.Justified codec name := exec_invariant (Justified codec name)
    (fun _ _ _ hw hstep => hw.step hcarries hstep)
    ⟨fun p hp => (by cases hp), fun p hp => (by cases hp)⟩ hrun
  rw [Membership.isAlive, Membership.addrForNode]
  cases hlookup : w.receiver.membership.peers.lookup name with
  | none => exact .inl ⟨rfl, rfl⟩
  | some p =>
      have halive := hsound.membership.alive name p hlookup
      obtain ⟨nodeMeta', hmem, hfits, haddr, hport⟩ := hjustified.now p hlookup
      refine .inr ⟨halive, nodeMeta', hmem, hhad.told nodeMeta' hmem, hfits, ?_⟩
      simp only [halive, if_true, haddr, hport]

/-! ## An update too large -/

def small : Membership.MetaCodec Unit where
  unmarshal _ := none
  isValid _ := true
  encode nodeMeta :=
    if nodeMeta.quicAddr = "10.0.0.2" ∧ nodeMeta.quicPort = 7947 then some (1 :: nodeMeta.appData)
    else none
  limit := 4

def smallDecoder : Membership.Codec Unit where
  decodeMeta
    | 1 :: appData => some ⟨"b", none, "10.0.0.2", 7947, appData⟩
    | _ => none
  isValid _ := true

theorem small_carries : Carries small smallDecoder where
  address nodeMeta data h := by
    simp only [small] at h
    split at h
    · next haddr =>
        cases h
        exact ⟨_, rfl, haddr.1.symm, haddr.2.symm⟩
    · cases h
  empty := rfl

def grow (nodeMeta : Membership.NodeMeta Unit) : Membership.NodeMeta Unit :=
  { nodeMeta with appData := [0, 0, 0, 0, 0, 0, 0, 0] }

def outgrown : List (AdvertisingLabel Unit) :=
  -- `b` is reported with its first metadata, then with the grown, and once more with the
  -- first
  [.receiver .startup, .receiver .startup, .receiver .startup, .receiver .startup,
    .notifyJoin 0 "10.0.0.2" 0, .receiver .startup, .receiver (.handle [] .insertion),
    .receiver (.handle [] .insertion), .sender (0, .proceed), .sender (0, .proceed),
    .receiver (.handle ["b"] .insertion), .sender (0, .proceed), .sender (0, .proceed),
    .receiver (.handle [] .insertion), .notifyUpdate 1 "10.0.0.2" 0, .sender (0, .proceed),
    .notifyUpdate 0 "10.0.0.2" 0]

theorem peers_know_advertised_outgrown :
    ∃ w, exec (step small smallDecoder Mesh.plainConfig "b")
        (start small () ⟨"b", none, "10.0.0.2", 7947, []⟩ [.updateMeta grow]) outgrown = some w ∧
      w.told.map (fun nodeMeta => (small.answer nodeMeta).isSome) = [true, false] ∧
      w.receiver.membership.isAlive "b" = true ∧
      w.receiver.membership.addrForNode "b" = "10.0.0.2:7947" := by
  obtain ⟨w, hrun, htold, halive⟩ : ∃ w,
      exec (step small smallDecoder Mesh.plainConfig "b")
        (start small () ⟨"b", none, "10.0.0.2", 7947, []⟩ [.updateMeta grow]) outgrown = some w ∧
      w.told.map (fun nodeMeta => (small.answer nodeMeta).isSome) = [true, false] ∧
      w.receiver.membership.isAlive "b" = true :=
    ⟨_, rfl, rfl, rfl⟩
  have hcalls : ∀ call ∈ [Membership.MetaCall.updateMeta grow], call.point.Has fun nodeMeta =>
      nodeMeta.quicAddr = "10.0.0.2" ∧ nodeMeta.quicPort = 7947 := by
    intro call hcall
    rw [List.mem_singleton.mp hcall]
    exact fun _ _ h => h
  have hknown := peers_know_advertised small_carries ⟨rfl, rfl⟩ (fun _ _ h => h) hcalls hrun
  rcases hknown with ⟨hdead, -⟩ | ⟨-, nodeMeta, -, ⟨haddr, hport⟩, -, hjoin⟩
  · rw [halive] at hdead
    cases hdead
  · refine ⟨w, hrun, htold, halive, ?_⟩
    rw [hjoin, haddr, hport]
    rfl

end Advertising

end GossipMesh
