import GossipMesh.Bootstrap.Registry
import GossipMesh.Foundation.Transition

/-!
# Discovery while the registry changes

One call of `DiscoverPeers`, from its listing to its last read, while others
register, deregister and write anything under any key.  Every registration it
returns was read from a key of its own, and a key that held a registration all
the time was read.
-/

namespace GossipMesh.Bootstrap

open GossipMesh.Foundation GossipMesh.Objstore

inductive DiscoveryOp where
  | get
  | register (now : Nat) (reg : NodeRegistration)
  | deregister (nodeID : String)
  | put (key : String) (data : Bytes)
  deriving DecidableEq

structure Discovery where
  store : MemoryObjectStore
  scan : Scan (List NodeRegistration)

namespace Discovery

variable {c : Marshaller NodeRegistration}

def start (store : MemoryObjectStore) : Discovery := ⟨store, discoverPeers store⟩

def step (c : Marshaller NodeRegistration) (d : Discovery) : DiscoveryOp → Option Discovery
  | .get => (d.scan.next (addPeer c) d.store).map fun scan => { d with scan := scan }
  -- a registration that cannot be marshalled leaves the store as it is
  | .register now reg => some { d with store := (register c now d.store reg).getD d.store }
  | .deregister nodeID => some { d with store := deregister d.store nodeID }
  | .put key data => some { d with store := (d.store.put key data noOptions).2 }

theorem step_cases {d d' : Discovery} {op : DiscoveryOp} (h : d.step c op = some d') :
    (op = .get ∧ d'.store = d.store ∧ d.scan.next (addPeer c) d.store = some d'.scan) ∨
      (op ≠ .get ∧ d'.scan = d.scan) := by
  cases op with
  | get =>
      obtain ⟨scan, hnext, rfl⟩ := Option.map_eq_some_iff.mp h
      exact .inl ⟨rfl, rfl, hnext⟩
  | register now reg | deregister nodeID | put key data =>
      cases h
      exact .inr ⟨by simp, rfl⟩

private theorem exists_step (d : Discovery) (op : DiscoveryOp)
    (h : [op].count .get ≤ d.scan.todo.length) :
    ∃ d', d.step c op = some d' ∧
      d'.scan.todo.length + [op].count .get = d.scan.todo.length := by
  cases op with
  | get =>
      obtain ⟨store, todo, found⟩ := d
      cases todo with
      | nil => simp at h
      | cons key todo =>
          obtain ⟨found', hnext⟩ := Scan.next_of_cons (addPeer c) store key todo found
          exact ⟨⟨store, ⟨todo, found'⟩⟩, by simp [step, hnext], by simp⟩
  | register now reg | deregister nodeID | put key data => exact ⟨_, rfl, rfl⟩

theorem exec_of_count (labels : List DiscoveryOp) (d : Discovery)
    (h : labels.count .get ≤ d.scan.todo.length) :
    ∃ d', exec (step c) d labels = some d' ∧
      d'.scan.todo.length + labels.count .get = d.scan.todo.length := by
  induction labels generalizing d with
  | nil => exact ⟨d, rfl, rfl⟩
  | cons op labels ih =>
      rw [← List.singleton_append, List.count_append] at h ⊢
      obtain ⟨u, hstep, hfirst⟩ := exists_step (c := c) d op (by omega)
      obtain ⟨d', hrun, hrest⟩ := ih u (by omega)
      exact ⟨d', exec_cons_eq_some.mpr ⟨u, hstep, hrun⟩, by omega⟩

end Discovery

/-! ## During the call -/

def Holds (c : Marshaller NodeRegistration) (store : MemoryObjectStore) (key : String)
    (reg : NodeRegistration) : Prop :=
  ∃ data, store.contents key = some data ∧ c.unmarshal data = some reg

namespace Discovery

variable {c : Marshaller NodeRegistration} {store : MemoryObjectStore}
  {labels : List DiscoveryOp} {d d' : Discovery} {op : DiscoveryOp} {key : String}

def During (c : Marshaller NodeRegistration) (store : MemoryObjectStore)
    (labels : List DiscoveryOp) (now : MemoryObjectStore) : Prop :=
  ∃ before after d, labels = before ++ after ∧ exec (step c) (start store) before = some d ∧
    d.store = now

theorem During.snoc {now : MemoryObjectStore} (h : During c store labels now)
    (op : DiscoveryOp) : During c store (labels ++ [op]) now := by
  obtain ⟨before, after, d, rfl, hrun, hnow⟩ := h
  exact ⟨before, after ++ [op], d, by simp, hrun, hnow⟩

theorem during_start (c : Marshaller NodeRegistration) (store : MemoryObjectStore)
    (labels : List DiscoveryOp) : During c store labels store :=
  ⟨[], labels, start store, rfl, rfl, rfl⟩

theorem during_of_exec (h : exec (step c) (start store) labels = some d) :
    During c store labels d.store :=
  ⟨labels, [], d, by simp, h, rfl⟩

def Throughout (c : Marshaller NodeRegistration) (store : MemoryObjectStore)
    (labels : List DiscoveryOp) (key : String) : Prop :=
  ∀ now, During c store labels now → ∃ reg, Holds c now key reg

/-- After the operations `labels`: `sources` are the keys the peers were read from. -/
structure Reads (c : Marshaller NodeRegistration) (store : MemoryObjectStore)
    (labels : List DiscoveryOp) (d : Discovery) (done sources : List String) : Prop where
  listed : store.list nodePrefix = done ++ d.scan.todo
  sublist : sources.Sublist done
  read : List.Forall₂ (fun key reg => ∃ now, During c store labels now ∧ Holds c now key reg)
    sources d.scan.found
  complete : ∀ key ∈ done, Throughout c store labels key → key ∈ sources

theorem reads_start : Reads c store [] (start store) [] [] where
  listed := rfl
  sublist := .slnil
  read := .nil
  complete := by simp

theorem Reads.other {done sources : List String} (h : Reads c store labels d done sources)
    (hscan : d'.scan = d.scan) (op : DiscoveryOp) :
    Reads c store (labels ++ [op]) d' done sources where
  listed := by rw [hscan, h.listed]
  sublist := h.sublist
  read := by
    rw [hscan]
    exact h.read.imp fun key reg ⟨now, hnow, hreg⟩ => ⟨now, hnow.snoc op, hreg⟩
  complete key hkey hthroughout :=
    h.complete key hkey fun now hnow => hthroughout now (hnow.snoc op)

private theorem Reads.get {done sources : List String} (h : Reads c store labels d done sources)
    (hrun : exec (step c) (start store) labels = some d)
    (hnext : d.scan.next (addPeer c) d.store = some d'.scan) :
    ∃ key sources', Reads c store (labels ++ [.get]) d' (done ++ [key]) sources' := by
  obtain ⟨key, todo, htodo, rfl, hfound⟩ := Scan.next_cases hnext
  have hnow := (during_of_exec hrun).snoc .get
  have hlisted : store.list nodePrefix = (done ++ [key]) ++ d'.scan.todo := by
    rw [h.listed, htodo]
    simp
  have hkept : Reads c store (labels ++ [.get]) d done sources := h.other rfl .get
  obtain ⟨-, -, hread, hcomplete⟩ := hkept
  by_cases hholds : ∃ reg, Holds c d.store key reg
  · obtain ⟨reg, data, hdata, hreg⟩ := hholds
    refine ⟨key, sources ++ [key], hlisted, h.sublist.append (.refl _), ?_, ?_⟩
    · have hpeers : d'.scan.found = d.scan.found ++ [reg] := by
        rw [hfound, hdata]
        simp [addPeer, hreg]
      rw [hpeers]
      exact List.rel_append hread (.cons ⟨d.store, hnow, data, hdata, hreg⟩ .nil)
    · intro other hother hthroughout
      rcases List.mem_append.mp hother with hdone | hlast
      · exact List.mem_append_left _ (hcomplete other hdone hthroughout)
      · exact List.mem_append_right _ hlast
  · refine ⟨key, sources, hlisted, h.sublist.trans (List.sublist_append_left _ _), ?_, ?_⟩
    · have hpeers : d'.scan.found = d.scan.found := by
        rw [hfound]
        cases hdata : d.store.contents key with
        | none => rfl
        | some data =>
            cases hreg : c.unmarshal data with
            | none => simp [addPeer, hreg]
            | some reg => exact absurd ⟨reg, data, hdata, hreg⟩ hholds
      rw [hpeers]
      exact hread
    · intro other hother hthroughout
      rcases List.mem_append.mp hother with hdone | hlast
      · exact hcomplete other hdone hthroughout
      · rw [List.mem_singleton.mp hlast] at hthroughout
        exact absurd (hthroughout d.store hnow) hholds

theorem reads_run (hrun : exec (step c) (start store) labels = some d) :
    ∃ done sources, Reads c store labels d done sources := by
  refine exec_history_invariant (P := fun _ _ => True)
    (fun labels d => ∃ done sources, Reads c store labels d done sources)
    ⟨[], [], reads_start⟩ ?_ (along_of_forall fun _ _ => trivial) hrun
  rintro acts t op u hacts ⟨done, sources, hreads⟩ - hstep
  rcases step_cases hstep with ⟨rfl, -, hnext⟩ | ⟨-, hscan⟩
  · obtain ⟨key, sources', hreads'⟩ := hreads.get hacts hnext
    exact ⟨done ++ [key], sources', hreads'⟩
  · exact ⟨done, sources, hreads.other hscan op⟩

/-! ## Registrations under their own keys -/

def Filed (c : Marshaller NodeRegistration) (store : MemoryObjectStore) : Prop :=
  ∀ key reg, nodePrefix.toList <+: key.toList → Holds c store key reg → key = nodeKey reg.nodeID

def Malformed (c : Marshaller NodeRegistration) : DiscoveryOp → Prop
  | .put key data => nodePrefix.toList <+: key.toList → c.unmarshal data = none
  | _ => True

instance (c : Marshaller NodeRegistration) : DecidablePred (Malformed c)
  | .put key data =>
      inferInstanceAs (Decidable (nodePrefix.toList <+: key.toList → c.unmarshal data = none))
  | .get | .register _ _ | .deregister _ => isTrue trivial

theorem filed_write {data : Bytes} (h : Filed c store)
    (hdata : ∀ reg, nodePrefix.toList <+: key.toList → c.unmarshal data = some reg →
      key = nodeKey reg.nodeID) : Filed c (store.write key data) := by
  rintro other reg hunder ⟨stored, hstored, hreg⟩
  rw [MemoryObjectStore.contents_write] at hstored
  split at hstored
  · next heq =>
      cases hstored
      subst heq
      exact hdata reg hunder hreg
  · exact h other reg hunder ⟨stored, hstored, hreg⟩

private theorem filed_step (h : Filed c d.store) (hop : Malformed c op)
    (hstep : d.step c op = some d') : Filed c d'.store := by
  cases op with
  | get =>
      obtain ⟨scan, -, rfl⟩ := Option.map_eq_some_iff.mp hstep
      exact h
  | register now reg =>
      cases hstep
      cases hmarshal : c.marshal (stamped now reg) with
      | none => simpa [register, hmarshal] using h
      | some data =>
          simp only [register, hmarshal, Option.map_some, Option.getD_some,
            MemoryObjectStore.put_noOptions]
          refine filed_write h fun reg' _ hreg' => ?_
          rw [c.lossless _ _ hmarshal] at hreg'
          cases hreg'
          rw [stamped_nodeID]
  | deregister nodeID =>
      cases hstep
      rintro key reg hunder ⟨data, hdata, hreg⟩
      simp only [deregister, MemoryObjectStore.contents_delete] at hdata
      split at hdata
      · cases hdata
      · exact h key reg hunder ⟨data, hdata, hreg⟩
  | put key data =>
      cases hstep
      rw [MemoryObjectStore.put_noOptions]
      refine filed_write h fun reg hunder hreg => ?_
      rw [hop hunder] at hreg
      cases hreg

private theorem filed_during (h : Filed c store) (hops : ∀ op ∈ labels, Malformed c op)
    {now : MemoryObjectStore} (hnow : During c store labels now) : Filed c now := by
  obtain ⟨before, after, d, rfl, hrun, rfl⟩ := hnow
  refine exec_invariant_of_along (P := fun _ op => Malformed c op) (fun d => Filed c d.store)
    (fun u op v hu hop hstep => filed_step hu hop hstep) h
    (along_of_forall fun op hop => hops op (List.mem_append_left _ hop)) hrun

/--
`DiscoverPeers` among any operations of others.  The call succeeds.  Each peer
was under its own source, a key of the registry, at some time during the call,
and every node whose key held a registration throughout is a source.  If the
registry has no registrations under keys of other nodes and only malformed data
is put there, then no node is returned twice, and a node whose key held a
registration throughout is returned.
-/
theorem discoverPeers_consistent (c : Marshaller NodeRegistration) (store : MemoryObjectStore)
    (labels : List DiscoveryOp)
    (hgets : labels.count .get = (store.list nodePrefix).length) :
    ∃ d, exec (step c) (start store) labels = some d ∧ d.scan.todo = [] ∧
      (∃ sources : List String, sources.Nodup ∧
        List.Forall₂ (fun key reg => nodePrefix.toList <+: key.toList ∧
          ∃ now, During c store labels now ∧ Holds c now key reg) sources d.scan.found ∧
        ∀ nodeID, Throughout c store labels (nodeKey nodeID) →
          sources.count (nodeKey nodeID) = 1) ∧
      (Filed c store → (∀ op ∈ labels, Malformed c op) →
        (d.scan.found.map NodeRegistration.nodeID).Nodup ∧
        ∀ nodeID, Throughout c store labels (nodeKey nodeID) →
          nodeID ∈ d.scan.found.map NodeRegistration.nodeID) := by
  obtain ⟨d, hrun, hlen⟩ := exec_of_count (c := c) labels (start store) hgets.le
  have htodo : d.scan.todo = [] := by
    rw [← List.length_eq_zero_iff]
    simp only [start, discoverPeers, Scan.start] at hlen
    omega
  obtain ⟨done, sources, hreads⟩ := reads_run hrun
  obtain rfl : done = store.list nodePrefix := by
    rw [hreads.listed, htodo, List.append_nil]
  have hnodup : sources.Nodup := hreads.sublist.nodup (store.nodup_list nodePrefix)
  have hread : List.Forall₂ (fun key reg => nodePrefix.toList <+: key.toList ∧
      ∃ now, During c store labels now ∧ Holds c now key reg) sources d.scan.found := by
    refine (List.forall₂_and_left _ _).mpr ⟨fun key hkey => ?_, hreads.read⟩
    exact (MemoryObjectStore.mem_list.mp (hreads.sublist.subset hkey)).2
  have hcomplete : ∀ nodeID, Throughout c store labels (nodeKey nodeID) →
      nodeKey nodeID ∈ sources := by
    intro nodeID hthroughout
    obtain ⟨reg, data, hdata, -⟩ := hthroughout store (during_start c store labels)
    refine hreads.complete _ (MemoryObjectStore.mem_list.mpr ⟨?_, nodePrefix_nodeKey nodeID⟩)
      hthroughout
    simp [hdata]
  refine ⟨d, hrun, htodo, ⟨sources, hnodup, hread, fun nodeID hthroughout => ?_⟩, ?_⟩
  · exact List.count_eq_one_of_mem hnodup (hcomplete nodeID hthroughout)
  · intro hfiled hops
    have hsources : sources = (d.scan.found.map NodeRegistration.nodeID).map nodeKey := by
      rw [← List.forall₂_eq_eq_eq, List.map_map, List.forall₂_map_right_iff]
      refine hread.imp fun key reg ⟨hunder, now, hnow, hholds⟩ => ?_
      exact filed_during hfiled hops hnow key reg hunder hholds
    rw [hsources] at hnodup hcomplete
    refine ⟨hnodup.of_map, fun nodeID hthroughout => ?_⟩
    obtain ⟨other, hmem, heq⟩ := List.mem_map.mp (hcomplete nodeID hthroughout)
    rwa [nodeKey_inj.mp heq] at hmem

def churnNode (nodeID : String) : NodeRegistration := ⟨nodeID, ["10.0.0.1:7946"], "", false, 1⟩

def churnCodec : Marshaller NodeRegistration :=
  .ofList [churnNode "a", churnNode "b", churnNode "c"] (by decide)

def churnStore : MemoryObjectStore :=
  ((MemoryObjectStore.empty.write (nodeKey "a") [0]).write (nodeKey "b") [1]).write (nodeKey "m") []

def churnOps : List DiscoveryOp :=
  [.deregister "a", .get, .register 5 (churnNode "b"), .get, .register 5 (churnNode "c"),
    .put (nodeKey "m") [9], .get]

theorem discoverPeers_consistent_churn :
    ∃ d, exec (step churnCodec) (start churnStore) churnOps = some d ∧ d.scan.todo = [] ∧
      (d.scan.found.map NodeRegistration.nodeID).Nodup ∧
      "b" ∈ d.scan.found.map NodeRegistration.nodeID := by
  have hfiled : Filed churnCodec churnStore := by
    have hempty : Filed churnCodec .empty := by
      rintro key reg - ⟨data, hdata, -⟩
      cases hdata
    refine filed_write (filed_write (filed_write hempty ?_) ?_) ?_
    · rintro reg - ⟨⟩
      rfl
    · rintro reg - ⟨⟩
      rfl
    · rintro reg - ⟨⟩
  have hops : ∀ op ∈ churnOps, Malformed churnCodec op := by
    decide
  have hheld : ∀ before ∈ churnOps.inits, ∀ d,
      exec (step churnCodec) (start churnStore) before = some d →
        ((d.store.contents (nodeKey "b")).bind churnCodec.unmarshal).isSome := by
    decide
  have hthroughout : Throughout churnCodec churnStore churnOps (nodeKey "b") := by
    rintro now ⟨before, after, d, heq, hrun, rfl⟩
    have hinit : before ∈ churnOps.inits :=
      (List.mem_inits _ _).mpr ⟨after, heq.symm⟩
    obtain ⟨reg, hreg⟩ := Option.isSome_iff_exists.mp (hheld before hinit d hrun)
    obtain ⟨data, hdata, hreg⟩ := Option.bind_eq_some_iff.mp hreg
    exact ⟨reg, data, hdata, hreg⟩
  obtain ⟨d, hrun, htodo, -, hnodes⟩ :=
    discoverPeers_consistent churnCodec churnStore churnOps (by decide)
  obtain ⟨hnodup, hfound⟩ := hnodes hfiled hops
  exact ⟨d, hrun, htodo, hnodup, hfound "b" hthroughout⟩

end Discovery

end GossipMesh.Bootstrap
