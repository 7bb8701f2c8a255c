import GossipMesh.S3nat.Connect

/-!
# Two nodes that come up

An extension registers its node before it looks for peers.  Of two nodes that
come up, in whatever order, the one that lists the registry last therefore
finds the other, and tries to join it.
-/

namespace GossipMesh.S3nat

open GossipMesh.Foundation GossipMesh.Objstore GossipMesh.Bootstrap

structure Watched (Coord : Type) where
  system : System Coord
  -- what the last complete call of `DiscoverPeers` of a node returned
  results : String → Option (List NodeRegistration)

variable {Coord : Type}

namespace Watched

def start (store : MemoryObjectStore) : Watched Coord := ⟨.initial store, fun _ => none⟩

def complete (scan : Scan (List NodeRegistration)) : Option (List NodeRegistration) :=
  -- a call that ends with keys unread has failed
  if scan.todo = [] then some scan.found else none

def returned (w : Watched Coord) (label : Label) (x : String) : Option (List NodeRegistration) :=
  match label with
  | .endDiscovery id =>
      if id = x then ((w.system.processes x).discovery.bind complete).or (w.results x)
      else w.results x
  | _ => w.results x

def step (c : Membership.Codec Coord) (j : Marshaller NodeRegistration) (cfg : String → Config)
    (w : Watched Coord) (label : Label) : Option (Watched Coord) :=
  (w.system.step c j cfg label).map fun system => ⟨system, w.returned label⟩

end Watched

def stays (id : String) : Label → Bool
  | .stop other | .deregister other | .crash other => other ≠ id
  | _ => true

section Steps

variable {c : Membership.Codec Coord} {j : Marshaller NodeRegistration} {cfg : String → Config}
  {s t : System Coord} {w w' : Watched Coord} {label : Label} {x y : String}

theorem System.live_step (h : s.step c j cfg label = some t) (hstays : stays x label = true)
    (hlive : s.Live x) : t.Live x := by
  have hidle : ∀ id, label = .start id → x ≠ id := by
    rintro id rfl rfl
    simp only [step] at h
    split at h
    · next hready => simp [Live, hready.1] at hlive
    · cases h
  cases steps_of_step h with
  | mesh | discover | get | endDiscovery => exact (live_update_of_stage rfl (by rfl) x).mpr hlive
  | start id => exact (live_update_ne rfl (hidle id rfl)).mpr hlive
  | register id =>
      by_cases hid : x = id
      · subst hid
        exact (live_update_self rfl).mpr (.inl rfl)
      · exact (live_update_ne rfl hid).mpr hlive
  | setOnLeave id =>
      by_cases hid : x = id
      · subst hid
        exact (live_update_self rfl).mpr (.inr rfl)
      · exact (live_update_ne rfl hid).mpr hlive
  | leave id hstage =>
      refine (live_update_ne rfl ?_).mpr hlive
      rintro rfl
      simp [Live, hstage] at hlive
  | stop id | deregister id | crash id =>
      have hne : id ≠ x := by simpa [stays] using hstays
      exact (live_update_ne rfl hne.symm).mpr hlive

theorem System.live_of_discovery (h : s.step c j cfg label = some t)
    (hnone : (s.processes x).discovery = none) {scan : Scan (List NodeRegistration)}
    (hscan : (t.processes x).discovery = some scan) : s.Live x := by
  have hrunning : label = .discover x → s.Live x := by
    rintro rfl
    simp only [step] at h
    split at h
    · next hready => exact .inr hready.1
    · cases h
  have hother : ∀ (id : String) {p : Process Coord},
      t.processes = Function.update s.processes id p →
      (id = x → p.discovery ≠ some scan) → False := by
    intro id p hp hself
    by_cases hid : id = x
    · rw [hp, hid, Function.update_self] at hscan
      exact hself hid hscan
    · rw [hp, Function.update_of_ne (Ne.symm hid), hnone] at hscan
      cases hscan
  cases steps_of_step h with
  | discover id =>
      by_cases hid : id = x
      · exact hrunning (by rw [hid])
      · exact (hother id rfl fun h => absurd h hid).elim
  | mesh id | start id | register id | setOnLeave id | deregister id =>
      refine (hother id rfl ?_).elim
      rintro rfl
      simp [hnone]
  | get id scan' scan'' hscan' =>
      refine (hother id rfl ?_).elim
      rintro rfl
      rw [hnone] at hscan'
      cases hscan'
  | endDiscovery id | stop id | leave id | crash id =>
      refine (hother id rfl fun _ hnew => ?_).elim
      cases hnew

namespace Watched

def Begun (x : String) (w : Watched Coord) : Prop :=
  (w.system.processes x).discovery.isSome ∨ (w.results x).isSome

/-- Neither what a node has found nor its call in progress misses the other. -/
structure Meets (x y : String) (w : Watched Coord) : Prop where
  scanning : System.Finds x y w.system
  returned : ∀ peers, w.results x = some peers → Lists y peers

theorem meets_of_not_begun (h : ¬ w.Begun x) : w.Meets x y := by
  rw [Begun, not_or, Option.not_isSome_iff_eq_none, Option.not_isSome_iff_eq_none] at h
  exact ⟨fun scan hscan => by simp [h.1] at hscan, fun peers hpeers => by simp [h.2] at hpeers⟩

theorem returned_cases {peers : List NodeRegistration}
    (h : w.returned label x = some peers) :
    w.results x = some peers ∨ (w.system.processes x).discovery = some ⟨[], peers⟩ := by
  unfold returned at h
  split at h
  · split at h
    · rcases Option.or_eq_some_iff.mp h with hnow | ⟨-, hold⟩
      · obtain ⟨⟨todo, found⟩, hscan, hcomplete⟩ := Option.bind_eq_some_iff.mp hnow
        simp only [complete] at hcomplete
        split at hcomplete
        · next htodo =>
            cases hcomplete
            exact .inr (htodo ▸ hscan)
        · cases hcomplete
      · exact .inl hold
    · exact .inl h
  · exact .inl h

theorem Meets.step (hw : w.Meets x y) (hregistered : Registered j w.system.store y)
    (h : w.step c j cfg label = some w') : w'.Meets x y := by
  obtain ⟨system, hsystem, rfl⟩ := Option.map_eq_some_iff.mp h
  refine ⟨System.finds_step hw.scanning hregistered hsystem, fun peers hpeers => ?_⟩
  rcases returned_cases hpeers with hold | hscan
  · exact hw.returned peers hold
  · exact (hw.scanning _ hscan).resolve_left (by simp)

theorem begun_step (h : w.step c j cfg label = some w') (hbegun : w'.Begun x) :
    w.Begun x ∨ w.system.Live x := by
  obtain ⟨system, hsystem, rfl⟩ := Option.map_eq_some_iff.mp h
  rcases hbegun with hscan | hresult
  · obtain ⟨scan, hscan⟩ := Option.isSome_iff_exists.mp hscan
    by_cases hbefore : (w.system.processes x).discovery.isSome = true
    · exact .inl (.inl hbefore)
    · exact .inr (System.live_of_discovery hsystem (Option.not_isSome_iff_eq_none.mp hbefore) hscan)
  · obtain ⟨peers, hpeers⟩ := Option.isSome_iff_exists.mp hresult
    rcases returned_cases hpeers with hold | hscan
    · exact .inl (.inr (by simp [hold]))
    · exact .inl (.inl (by simp [hscan]))

/-- One of two nodes meets the other. -/
structure Paired (j : Marshaller NodeRegistration) (a b : String) (w : Watched Coord) : Prop where
  registered : System.AllRegistered j w.system
  live : ∀ x, x = a ∨ x = b → w.Begun x → w.system.Live x
  meets : w.Meets a b ∨ w.Meets b a

private theorem Meets.either (hw : w.Meets x y) (hregistered : System.AllRegistered j w.system)
    (hlive : w.Begun y → w.system.Live y) (h : w.step c j cfg label = some w') :
    w'.Meets x y ∨ w'.Meets y x := by
  by_cases hy : w.system.Live y
  · exact .inl (hw.step (hregistered y hy) h)
  · refine .inr (meets_of_not_begun fun hbegun => hy ?_)
    rcases begun_step h hbegun with hbefore | hnow
    · exact hlive hbefore
    · exact hnow

theorem Paired.step {a b : String} (hw : w.Paired j a b) (hspares : w.system.Spares label)
    (ha : stays a label = true) (hb : stays b label = true)
    (h : w.step c j cfg label = some w') : w'.Paired j a b := by
  have hmeets : w'.Meets a b ∨ w'.Meets b a := by
    rcases hw.meets with hab | hba
    · exact hab.either hw.registered (hw.live b (.inr rfl)) h
    · exact (hba.either hw.registered (hw.live a (.inl rfl)) h).symm
  have hbegun : ∀ x, x = a ∨ x = b → w'.Begun x → w.system.Live x := by
    intro x hx hx'
    rcases begun_step h hx' with hbefore | hnow
    · exact hw.live x hx hbefore
    · exact hnow
  obtain ⟨system, hsystem, rfl⟩ := Option.map_eq_some_iff.mp h
  refine ⟨(System.allRegistered_step_iff hw.registered hsystem).mpr hspares, ?_, hmeets⟩
  intro x hx hx'
  refine System.live_step hsystem ?_ (hbegun x hx hx')
  rcases hx with rfl | rfl
  · exact ha
  · exact hb

private theorem not_begun_start (store : MemoryObjectStore) (x : String) :
    ¬ (start store : Watched Coord).Begun x := by
  simp [Begun, start, System.initial, Process.new]

theorem paired_start (store : MemoryObjectStore) (a b : String) :
    (start store : Watched Coord).Paired j a b where
  registered := System.allRegistered_initial store
  live x _ hbegun := (not_begun_start store x hbegun).elim
  meets := .inl (meets_of_not_begun (not_begun_start store a))

structure Plain (j : Marshaller NodeRegistration) (cfg : String → Config) (w : Watched Coord) :
    Prop where
  system : System.Plain j cfg w.system
  results : ∀ x peers, w.results x = some peers → ∀ reg ∈ peers, Own cfg reg

theorem Plain.step (hw : w.Plain j cfg) (h : w.step c j cfg label = some w') :
    w'.Plain j cfg := by
  obtain ⟨system, hsystem, rfl⟩ := Option.map_eq_some_iff.mp h
  refine ⟨System.plain_step hw.system (System.steps_of_step hsystem), fun x peers hpeers => ?_⟩
  rcases returned_cases hpeers with hold | hscan
  · exact hw.results x peers hold
  · exact (hw.system.scanned x _ hscan).found

theorem plain_start {store : MemoryObjectStore} (hstore : AllOwn j cfg store) :
    (start store : Watched Coord).Plain j cfg where
  system := ⟨hstore, nofun⟩
  results := nofun

end Watched

end Steps

/-! ## What comes of it -/

/--
If it is not known to be alive, the node `y` is joined at its bind address,
whatever is known of the other peers and whatever becomes of them.
-/
def Tries (cfg : String → Config) (x y : String) (peers : List NodeRegistration) : Prop :=
  ∀ outcomes : Nat → Outcomes,
    (∀ i reg, peers[i]? = some reg → reg.nodeID = y → (outcomes i).alive = false) →
    .join (bindAddr (cfg y)) ∈ discoverAndConnect x outcomes peers

private theorem join_mem_connect {self addr : String} {o : Outcomes} {peer : NodeRegistration}
    (hself : peer.nodeID ≠ self) (halive : o.alive = false)
    (haddr : peer.addrs.head? = some addr) : .join addr ∈ connect self o peer := by
  rw [connect, if_neg hself, if_neg (by simp [halive]), tryMemberlistJoin_of_head haddr]
  dsimp only
  split
  · simp
  · split <;> simp

private theorem tries_of_lists {cfg : String → Config} {x y : String} {peers : List NodeRegistration}
    (hxy : y ≠ x) (hown : ∀ reg ∈ peers, Own cfg reg) (h : Lists y peers) :
    Tries cfg x y peers := by
  obtain ⟨reg, hreg, rfl⟩ := h
  intro outcomes halive
  obtain ⟨i, hi⟩ := List.mem_iff_getElem?.mp hreg
  refine List.mem_flatMap.mpr ⟨(reg, i), List.mem_zipIdx_iff_getElem?.mpr hi, ?_⟩
  exact join_mem_connect hxy (halive i reg hi rfl) (hown reg hreg).fields.2.2

/--
Of two nodes that have come up and looked for peers, one has found the other
and tries to join it, however their steps and those of other nodes interleave, as long as both
stay up and nobody runs its leave callback for a node that is up.
-/
theorem one_tries_the_other {c : Membership.Codec Coord} {j : Marshaller NodeRegistration}
    {cfg : String → Config} {store : MemoryObjectStore} (hstore : AllOwn j cfg store)
    {a b : String} (hab : a ≠ b) {labels : List Label} {w : Watched Coord}
    (hrun : exec (Watched.step c j cfg) (.start store) labels = some w)
    (halong : Along (Watched.step c j cfg) (fun w label => w.system.Spares label ∧
      stays a label = true ∧ stays b label = true) (.start store) labels)
    {foundByA foundByB : List NodeRegistration} (ha : w.results a = some foundByA)
    (hb : w.results b = some foundByB) :
    (Lists b foundByA ∧ Tries cfg a b foundByA) ∨
      (Lists a foundByB ∧ Tries cfg b a foundByB) := by
  have hplain : w.Plain j cfg := exec_invariant (Watched.Plain j cfg)
    (fun _ _ _ hw hstep => hw.step hstep) (Watched.plain_start hstore) hrun
  have hpaired : w.Paired j a b := exec_invariant_of_along (Watched.Paired j a b)
    (fun _ _ _ hw hlabel hstep => hw.step hlabel.1 hlabel.2.1 hlabel.2.2 hstep)
    (Watched.paired_start store a b) halong hrun
  rcases hpaired.meets with hmeets | hmeets
  · have hlists := hmeets.returned _ ha
    exact .inl ⟨hlists, tries_of_lists hab.symm (hplain.results a _ ha) hlists⟩
  · have hlists := hmeets.returned _ hb
    exact .inr ⟨hlists, tries_of_lists hab (hplain.results b _ hb) hlists⟩

def oneAfterTheOther : List Label :=
  -- `p` lists the registry before `n` has registered
  System.comeUp "p" 1 ++ [.setOnLeave "p", .discover "p"] ++ System.comeUp "n" 1 ++
    [.setOnLeave "n", .get "p", .endDiscovery "p", .discover "n", .get "n", .get "n",
      .endDiscovery "n"]

theorem one_tries_the_other_later : ∃ (w : Watched Unit) (found foundByN : List NodeRegistration),
    exec (Watched.step Mesh.plainCodec System.sampleCodec System.sampleConfig) (.start .empty)
        oneAfterTheOther = some w ∧
      w.results "p" = some found ∧ w.results "n" = some foundByN ∧
      discoverAndConnect "p" unreachable found = [] ∧
      Lists "p" foundByN ∧ Tries System.sampleConfig "n" "p" foundByN := by
  have hmap : (exec (Watched.step Mesh.plainCodec System.sampleCodec System.sampleConfig)
      (.start .empty : Watched Unit) oneAfterTheOther).map
        (fun w => (w.results "p", w.results "n")) =
      some (some [stamped 1 (registration "p" (System.sampleConfig "p"))],
        some [stamped 1 (registration "n" (System.sampleConfig "n")),
          stamped 1 (registration "p" (System.sampleConfig "p"))]) := by
    decide
  obtain ⟨w, hrun, hresults⟩ := Option.map_eq_some_iff.mp hmap
  obtain ⟨hp, hn⟩ := Prod.mk.inj hresults
  have hstore : AllOwn System.sampleCodec System.sampleConfig .empty := by
    intro key data reg _ hdata
    cases hdata
  have hnone : discoverAndConnect "p" unreachable
      [stamped 1 (registration "p" (System.sampleConfig "p"))] = [] := by
    decide
  refine ⟨w, _, _, hrun, hp, hn, hnone, ?_⟩
  rcases one_tries_the_other hstore (by decide) hrun (by decide) hp hn with
    ⟨-, htries⟩ | hfound
  · have hjoin := htries unreachable fun _ _ _ _ => rfl
    rw [hnone] at hjoin
    cases hjoin
  · exact hfound

end GossipMesh.S3nat
