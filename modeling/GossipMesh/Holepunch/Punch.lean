import GossipMesh.Foundation.Transition
import GossipMesh.Holepunch.Signal

/-!
# The rendezvous of a hole punch

`AttemptHolePunch` writes its own signal, polls until it reads the one of its
peer, dials, and in the end removes the signals of both sides.  The two runs of
a pair of nodes are modeled by the operation each performs next, so that their
operations on the store interleave freely.

A side that is done removes a signal its peer may still be polling for.  The
rendezvous is mutual exactly if that does not happen.
-/

namespace GossipMesh.Holepunch

open GossipMesh.Foundation GossipMesh.Objstore

/-- Two different nodes, each with its own address. -/
structure Pair where
  ids : Bool → String
  addrs : Bool → String
  distinct : ids true ≠ ids false

namespace Pair

variable (p : Pair)

def key (side : Bool) : String := signalKey (p.ids side) (p.ids !side) (p.ids side)

theorem ids_ne (side : Bool) : p.ids (!side) ≠ p.ids side := by
  cases side with
  | false => exact p.distinct
  | true => exact p.distinct.symm

theorem key_not (side : Bool) :
    p.key (!side) = signalKey (p.ids side) (p.ids !side) (p.ids !side) := by
  rw [key, Bool.not_not, signalKey_comm]

theorem signalPrefix_key (side : Bool) :
    (signalPrefix (p.ids true) (p.ids false)).toList <+: (p.key side).toList := by
  cases side with
  | true => exact signalPrefix_signalKey _ _ _
  | false =>
      rw [signalPrefix_comm]
      exact signalPrefix_signalKey _ _ _

theorem key_ne (side : Bool) : p.key (!side) ≠ p.key side := by
  rw [key_not, key]
  exact fun h => p.ids_ne side (signalKey_inj.mp h)

end Pair

inductive Phase where
  | write
  | waiting
  | reading (scan : Scan Signals)
  | dialing (peer : Signal)
  -- the deferred call
  | cleanup
  | deleting (keys : List String)
  | returned
  deriving DecidableEq

inductive Op where
  | write (nonce : String) (now : Nat)
  | poll
  | get
  | endPoll
  -- the deadline passes between two polls
  | timeout
  | endDial
  | listKeys
  | delete
  | finish

def operate (j : Marshaller Signal) (p : Pair) (side : Bool) (store : MemoryObjectStore) :
    Phase → Op → Option (Phase × MemoryObjectStore)
  | .write, .write nonce now =>
      (writeSignalForPeer j now store (p.ids side) (p.ids !side)
        ⟨p.ids side, p.addrs side, nonce, 0⟩).map fun store => (.waiting, store)
  | .waiting, .poll => some (.reading (readSignals store (p.ids side) (p.ids !side)), store)
  | .waiting, .timeout => some (.cleanup, store)
  | .reading scan, .get =>
      (scan.next (addSignal j (p.ids side) (p.ids !side)) store).map fun scan =>
        (.reading scan, store)
  | .reading ⟨[], found⟩, .endPoll =>
      match found.peer with
      | none => some (.waiting, store)
      | some peer => some (.dialing peer, store)
  | .dialing _, .endDial => some (.cleanup, store)
  | .cleanup, .listKeys =>
      some (.deleting (store.list (signalPrefix (p.ids side) (p.ids !side))), store)
  | .deleting (key :: keys), .delete => some (.deleting keys, store.delete key)
  | .deleting [], .finish => some (.returned, store)
  | _, _ => none

inductive Operates (j : Marshaller Signal) (p : Pair) (side : Bool) (store : MemoryObjectStore) :
    Phase → Op → Phase → MemoryObjectStore → Prop
  | write (nonce : String) (now : Nat) (store' : MemoryObjectStore)
      (hwrite : writeSignalForPeer j now store (p.ids side) (p.ids !side)
        ⟨p.ids side, p.addrs side, nonce, 0⟩ = some store') :
      Operates j p side store .write (.write nonce now) .waiting store'
  | poll : Operates j p side store .waiting .poll
      (.reading (readSignals store (p.ids side) (p.ids !side))) store
  | timeout : Operates j p side store .waiting .timeout .cleanup store
  | get (scan scan' : Scan Signals)
      (hnext : scan.next (addSignal j (p.ids side) (p.ids !side)) store = some scan') :
      Operates j p side store (.reading scan) .get (.reading scan') store
  | missed (found : Signals) (hnone : found.peer = none) :
      Operates j p side store (.reading ⟨[], found⟩) .endPoll .waiting store
  | met (found : Signals) (peer : Signal) (hpeer : found.peer = some peer) :
      Operates j p side store (.reading ⟨[], found⟩) .endPoll (.dialing peer) store
  | endDial (peer : Signal) : Operates j p side store (.dialing peer) .endDial .cleanup store
  | listKeys : Operates j p side store .cleanup .listKeys
      (.deleting (store.list (signalPrefix (p.ids side) (p.ids !side)))) store
  | delete (key : String) (keys : List String) :
      Operates j p side store (.deleting (key :: keys)) .delete (.deleting keys)
        (store.delete key)
  | finish : Operates j p side store (.deleting []) .finish .returned store

theorem operates_of_operate {j : Marshaller Signal} {p : Pair} {side : Bool}
    {store store' : MemoryObjectStore} {phase phase' : Phase} {op : Op}
    (h : operate j p side store phase op = some (phase', store')) :
    Operates j p side store phase op phase' store' := by
  unfold operate at h
  split at h
  · obtain ⟨store'', hwrite, heq⟩ := Option.map_eq_some_iff.mp h
    cases heq
    exact .write _ _ _ hwrite
  · cases h
    exact .poll
  · cases h
    exact .timeout
  · obtain ⟨scan', hnext, heq⟩ := Option.map_eq_some_iff.mp h
    cases heq
    exact .get _ _ hnext
  · split at h
    · next hnone =>
        cases h
        exact .missed _ hnone
    · next hpeer =>
        cases h
        exact .met _ _ hpeer
  · cases h
    exact .endDial _
  · cases h
    exact .listKeys
  · cases h
    exact .delete _ _
  · cases h
    exact .finish
  · cases h

/-! ## Both sides -/

structure Rendezvous where
  store : MemoryObjectStore
  phases : Bool → Phase

structure Label where
  side : Bool
  op : Op

namespace Rendezvous

def initial (store : MemoryObjectStore) : Rendezvous := ⟨store, fun _ => .write⟩

def step (j : Marshaller Signal) (p : Pair) (s : Rendezvous) (l : Label) : Option Rendezvous :=
  (operate j p l.side s.store (s.phases l.side) l.op).map fun next =>
    ⟨next.2, Function.update s.phases l.side next.1⟩

end Rendezvous

def Phase.Waiting : Phase → Prop
  | .waiting => True
  | .reading scan => scan.found.peer = none
  | .write | .dialing _ | .cleanup | .deleting _ | .returned => False

instance : DecidablePred Phase.Waiting
  | .waiting => isTrue trivial
  | .reading scan => inferInstanceAs (Decidable (scan.found.peer = none))
  | .write | .dialing _ | .cleanup | .deleting _ | .returned => isFalse not_false

def Phase.Deleted (key : String) : Phase → Prop
  | .deleting keys => key ∉ keys
  | .returned => True
  | .write | .waiting | .reading _ | .dialing _ | .cleanup => False

instance (key : String) : DecidablePred (Phase.Deleted key)
  | .deleting keys => inferInstanceAs (Decidable (key ∉ keys))
  | .returned => isTrue trivial
  | .write | .waiting | .reading _ | .dialing _ | .cleanup => isFalse not_false

namespace Rendezvous

/-- The side waits for a signal that its peer has written. -/
def Awaits (s : Rendezvous) (side : Bool) : Prop :=
  (s.phases side).Waiting ∧ s.phases (!side) ≠ .write

instance (s : Rendezvous) : DecidablePred s.Awaits := fun _ =>
  inferInstanceAs (Decidable (_ ∧ _))

/-- A signal that is waited for is in the store. -/
def Kept (p : Pair) (s : Rendezvous) : Prop :=
  ∀ side, s.Awaits side → (s.store.contents (p.key !side)).isSome

def deleted (s : Rendezvous) (l : Label) : Option String :=
  match l.op, s.phases l.side with
  | .delete, .deleting (key :: _) => some key
  | _, _ => none

def writes : Op → Bool
  | .write _ _ => true
  | _ => false

/--
The step deletes no signal that is waited for, and does not write one when the
peer has already written and cleaned up its own.
-/
def Spares (p : Pair) (s : Rendezvous) (l : Label) : Prop :=
  (∀ key, s.deleted l = some key → ∀ side, s.Awaits side → key ≠ p.key !side) ∧
    (writes l.op = true → ¬ (s.phases (!l.side)).Deleted (p.key !l.side))

instance (p : Pair) (s : Rendezvous) (l : Label) : Decidable (s.Spares p l) :=
  inferInstanceAs (Decidable (_ ∧ _))

variable {j : Marshaller Signal} {p : Pair} {s t : Rendezvous} {l : Label}

/-! ## What a step does to the signals -/

/-- The effects a step can have on the store and on who waits for what. -/
inductive Effect (j : Marshaller Signal) (p : Pair) (s t : Rendezvous) (l : Label) : Prop
  | quiet (hdeleted : s.deleted l = none) (hwrites : writes l.op = false)
      (hstore : t.store = s.store) (hawaits : ∀ side, t.Awaits side → s.Awaits side)
  | wrote (hdeleted : s.deleted l = none) (hwrites : writes l.op = true)
      (hphase : s.phases l.side = .write)
      (hself : ∃ data, t.store.contents (p.key l.side) = some data ∧
        SignalOf j (p.ids l.side) data)
      (hpeer : t.store.contents (p.key !l.side) = s.store.contents (p.key !l.side))
      (hawaits : t.Awaits l.side ↔ s.phases (!l.side) ≠ .write)
  | deleted (key : String) (hdeleted : s.deleted l = some key) (hwrites : writes l.op = false)
      (hstore : t.store = s.store.delete key) (hawaits : ∀ side, t.Awaits side ↔ s.Awaits side)

variable {j : Marshaller Signal} {p : Pair} {s t : Rendezvous} {l : Label}

theorem operates_of_step (h : s.step j p l = some t) :
    ∃ phase, t.phases = Function.update s.phases l.side phase ∧
      Operates j p l.side s.store (s.phases l.side) l.op phase t.store := by
  obtain ⟨⟨phase, store⟩, hop, rfl⟩ := Option.map_eq_some_iff.mp h
  exact ⟨phase, rfl, operates_of_operate hop⟩

theorem awaits_update_self {side : Bool} {phase : Phase}
    (hp : t.phases = Function.update s.phases side phase) :
    t.Awaits side ↔ phase.Waiting ∧ s.phases (!side) ≠ .write := by
  simp [Awaits, hp]

theorem awaits_update_not {side : Bool} {phase : Phase}
    (hp : t.phases = Function.update s.phases side phase) :
    t.Awaits (!side) ↔ (s.phases (!side)).Waiting ∧ phase ≠ .write := by
  simp [Awaits, hp]

theorem awaits_iff_not (s : Rendezvous) (side : Bool) :
    s.Awaits (!side) ↔ (s.phases (!side)).Waiting ∧ s.phases side ≠ .write := by
  simp [Awaits]

private theorem awaits_of_update {side : Bool} {phase : Phase}
    (hp : t.phases = Function.update s.phases side phase)
    (hwaiting : phase.Waiting → (s.phases side).Waiting) (hwritten : s.phases side ≠ .write)
    (other : Bool) (h : t.Awaits other) : s.Awaits other := by
  rcases Bool.eq_or_eq_not other side with rfl | rfl
  · rw [awaits_update_self hp] at h
    exact ⟨hwaiting h.1, h.2⟩
  · rw [awaits_update_not hp] at h
    exact (s.awaits_iff_not side).mpr ⟨h.1, hwritten⟩

theorem effect_of_step (h : s.step j p l = some t) : Effect j p s t l := by
  obtain ⟨phase, hp, hop⟩ := operates_of_step h
  obtain ⟨side, op⟩ := l
  dsimp only at hp hop
  generalize hphase : s.phases side = before at hop
  generalize hstore : t.store = after at hop
  cases hop with
  | write nonce now store hwrite =>
      obtain ⟨hself, hothers⟩ := contents_writeSignalForPeer hwrite rfl
      refine .wrote rfl rfl hphase ?_ ?_ ?_
      · rw [hstore]
        exact hself
      · rw [hstore]
        exact hothers _ (p.key_ne side)
      · rw [awaits_update_self hp]
        exact and_iff_right trivial
  | delete key keys =>
      refine .deleted key (by simp [deleted, hphase]) rfl hstore fun other => ?_
      rcases Bool.eq_or_eq_not other side with rfl | rfl
      · rw [awaits_update_self hp, Awaits, hphase]
        rfl
      · rw [awaits_update_not hp, awaits_iff_not, hphase]
        simp
  | get scan scan' hnext =>
      refine .quiet rfl rfl hstore (awaits_of_update hp ?_ (by simp [hphase]))
      rw [hphase]
      intro hnone
      rcases peer_next hnext with heq | ⟨sig, hsig, -⟩
      · exact heq.symm.trans hnone
      · cases hsig.symm.trans hnone
  | poll | timeout | missed | met | endDial | listKeys | finish =>
      exact .quiet rfl rfl hstore
        (awaits_of_update hp (by simp [Phase.Waiting, *]) (by simp [hphase]))

/-! ## Signals are kept -/

theorem kept_initial (p : Pair) (store : MemoryObjectStore) : Kept p (initial store) :=
  fun _ hawaits => hawaits.1.elim

/--
Until its peer writes, the signal of a side is in the store from its own write
up to its own cleanup.
-/
structure Stocked (p : Pair) (s : Rendezvous) : Prop where
  distinct : ∀ side keys, s.phases side = .deleting keys → keys.Nodup
  signal : ∀ side, s.phases (!side) = .write → s.phases side ≠ .write →
    ((s.store.contents (p.key side)).isSome ↔ ¬ (s.phases side).Deleted (p.key side))

theorem stocked_initial (p : Pair) (store : MemoryObjectStore) : Stocked p (initial store) :=
  ⟨nofun, fun _ _ hwritten => absurd rfl hwritten⟩

theorem Stocked.not_deleted_iff (hs : Stocked p s) {side : Bool}
    (hpeer : s.phases (!side) = .write) :
    ¬ (s.phases side).Deleted (p.key side) ↔
      (s.phases side ≠ .write → (s.store.contents (p.key side)).isSome) := by
  by_cases hwrite : s.phases side = .write
  · simp [hwrite, Phase.Deleted]
  · simp [hwrite, hs.signal side hpeer hwrite]

private theorem distinct_step (hs : Stocked p s) (h : s.step j p l = some t) {side : Bool}
    {keys : List String} (hkeys : t.phases side = .deleting keys) : keys.Nodup := by
  obtain ⟨phase, hp, hop⟩ := operates_of_step h
  by_cases hside : side = l.side
  · rw [hside, hp, Function.update_self] at hkeys
    have hold := hs.distinct l.side
    generalize s.phases l.side = before at hop hold
    generalize l.op = op at hop
    generalize t.store = after at hop
    cases hop with
    | listKeys =>
        cases hkeys
        exact s.store.nodup_list _
    | delete key rest =>
        cases hkeys
        exact (List.nodup_cons.mp (hold _ rfl)).2
    | _ => cases hkeys
  · rw [hp, Function.update_of_ne hside] at hkeys
    exact hs.distinct side keys hkeys

theorem stocked_step (hs : Stocked p s) (h : s.step j p l = some t) : Stocked p t where
  distinct _ _ := distinct_step hs h
  signal side hpeer hwritten := by
    obtain ⟨phase, hp, hop⟩ := operates_of_step h
    obtain ⟨mover, op⟩ := l
    dsimp only at hp hop
    rcases Bool.eq_or_eq_not side mover with rfl | rfl
    · rw [hp, Function.update_of_ne (by simp)] at hpeer
      have hold := hs.signal side hpeer
      have hdistinct := hs.distinct side
      rw [hp, Function.update_self]
      generalize s.phases side = before at hop hold hdistinct
      generalize hstore : t.store = after at hop
      cases hop with
      | write nonce now store hwrite =>
          obtain ⟨⟨data, hdata, -⟩, -⟩ := contents_writeSignalForPeer hwrite rfl
          refine iff_of_true ?_ not_false
          rw [Pair.key, hdata]
          rfl
      | listKeys =>
          have hthere := (hold nofun).mpr not_false
          have hlisted : p.key side ∈ s.store.list (signalPrefix (p.ids side) (p.ids !side)) :=
            MemoryObjectStore.mem_list.mpr ⟨hthere, signalPrefix_signalKey _ _ _⟩
          simp [hthere, Phase.Deleted, hlisted]
      | delete key keys =>
          have hold := hold nofun
          have hnotMem := (List.nodup_cons.mp (hdistinct _ rfl)).1
          simp only [Phase.Deleted, not_not, List.mem_cons] at hold ⊢
          rw [MemoryObjectStore.contents_delete]
          by_cases hkey : p.key side = key
          · subst hkey
            simp [hnotMem]
          · simp [hkey, hold]
      | finish => simpa [Phase.Deleted] using hold nofun
      | poll | timeout | get | missed | met | endDial =>
          exact iff_of_true ((hold nofun).mpr not_false) not_false
    · -- nobody comes back to writing
      rw [Bool.not_not, hp, Function.update_self] at hpeer
      subst hpeer
      generalize s.phases mover = before at hop
      cases hop

/-- A step from a good state leads to a good one exactly if it spares the signals. -/
theorem kept_step_iff (hs : Kept p s) (hstocked : Stocked p s) (h : s.step j p l = some t) :
    Kept p t ↔ s.Spares p l := by
  cases effect_of_step h with
  | quiet hdeleted hwrites hstore hawaits =>
      refine iff_of_true ?_ (by simp [Spares, hdeleted, hwrites])
      intro side hside
      rw [hstore]
      exact hs side (hawaits side hside)
  | wrote hdeleted hwrites hphase hself hpeer hawaits =>
      have hspares : s.Spares p l ↔ (s.phases (!l.side) ≠ .write →
          (s.store.contents (p.key !l.side)).isSome) := by
        simp only [Spares, hdeleted, hwrites, reduceCtorEq, false_implies, implies_true,
          true_and, true_implies]
        exact hstocked.not_deleted_iff (by rwa [Bool.not_not])
      rw [hspares, ← hawaits, ← hpeer]
      refine ⟨fun ht => ht l.side, fun hother side hside => ?_⟩
      rcases Bool.eq_or_eq_not side l.side with heq | heq
      · rw [heq] at hside ⊢
        exact hother hside
      · obtain ⟨data, hdata, -⟩ := hself
        rw [heq, Bool.not_not, hdata]
        rfl
  | deleted key hdeleted hwrites hstore hawaits =>
      have hspares : s.Spares p l ↔ ∀ side, s.Awaits side → key ≠ p.key !side := by
        simp [Spares, hdeleted, hwrites]
      rw [hspares]
      refine forall_congr' fun side => ?_
      rw [hawaits, hstore, MemoryObjectStore.contents_delete]
      refine forall_congr' fun hside => ?_
      by_cases hkey : p.key (!side) = key
      · simp [hkey]
      · simp [hkey, Ne.symm hkey, hs side hside]

/-! ## A poll finds the peer -/

theorem written_step {side : Bool} (hs : s.phases side ≠ .write) (h : s.step j p l = some t) :
    t.phases side ≠ .write := by
  obtain ⟨phase, hp, hop⟩ := operates_of_step h
  by_cases hside : side = l.side
  · rw [hside, hp, Function.update_self]
    generalize s.phases l.side = before at hop
    generalize l.op = op at hop
    generalize t.store = after at hop
    cases hop <;> simp
  · rwa [hp, Function.update_of_ne hside]

theorem reading_step {side : Bool} {scan' : Scan Signals} (h : s.step j p l = some t)
    (hreading : t.phases side = .reading scan') :
    s.phases side = .reading scan' ∨
      (s.phases side = .waiting ∧ scan' = readSignals s.store (p.ids side) (p.ids !side)) ∨
      ∃ scan, s.phases side = .reading scan ∧
        scan.next (addSignal j (p.ids side) (p.ids !side)) s.store = some scan' := by
  obtain ⟨phase, hp, hop⟩ := operates_of_step h
  by_cases hside : side = l.side
  · subst hside
    rw [hp, Function.update_self] at hreading
    subst hreading
    generalize hphase : s.phases l.side = before at hop
    generalize l.op = op at hop
    generalize t.store = after at hop
    cases hop with
    | poll => exact .inr (.inl ⟨rfl, rfl⟩)
    | get scan scan' hnext => exact .inr (.inr ⟨scan, rfl, hnext⟩)
  · rw [hp, Function.update_of_ne hside] at hreading
    exact .inl hreading

/--
The signals in the store were written by the attempts, and what a poll has
taken for the signal of the peer is one.
-/
structure Sound (j : Marshaller Signal) (p : Pair) (s : Rendezvous) : Prop where
  genuine : ∀ side data, s.store.contents (p.key side) = some data → SignalOf j (p.ids side) data
  named : ∀ side scan, s.phases side = .reading scan →
    scan.found.peer.isSome → FoundPeer (p.ids !side) scan.found

theorem sound_initial {store : MemoryObjectStore}
    (hclean : ∀ side, store.contents (p.key side) = none) : Sound j p (initial store) where
  genuine side data hdata := by
    cases (hclean side).symm.trans hdata
  named side scan hscan := by
    cases hscan

theorem sound_step (hs : Sound j p s) (h : s.step j p l = some t) : Sound j p t where
  genuine side data hdata := by
    cases effect_of_step h with
    | quiet hdeleted hwrites hstore hawaits =>
        rw [hstore] at hdata
        exact hs.genuine side data hdata
    | wrote hdeleted hwrites hphase hself hpeer hawaits =>
        rcases Bool.eq_or_eq_not side l.side with rfl | rfl
        · obtain ⟨written, hwritten, hsignal⟩ := hself
          cases hwritten.symm.trans hdata
          exact hsignal
        · exact hs.genuine _ data (hpeer.symm.trans hdata)
    | deleted key hdeleted hwrites hstore hawaits =>
        rw [hstore, MemoryObjectStore.contents_delete] at hdata
        split at hdata
        · cases hdata
        · exact hs.genuine side data hdata
  named side scan' hreading hpeer := by
    rcases reading_step h hreading with hsame | ⟨-, rfl⟩ | ⟨scan, hscan, hnext⟩
    · exact hs.named side scan' hsame hpeer
    · cases hpeer
    · rcases peer_next hnext with heq | hfound
      · rw [heq] at hpeer
        rw [FoundPeer, heq]
        exact hs.named side scan hscan hpeer
      · exact hfound

/-- A poll of the side has not missed the signal of its peer. -/
def Finds (p : Pair) (side : Bool) (s : Rendezvous) : Prop :=
  ∀ scan, s.phases side = .reading scan → scan.Covers (p.key !side) (FoundPeer (p.ids !side))

private theorem finds_step {side : Bool} (hs : Finds p side s) (hsound : Sound j p s)
    (hkept : Kept p s) (hwritten : s.phases (!side) ≠ .write) (h : s.step j p l = some t) :
    Finds p side t := by
  intro scan' hreading
  rcases reading_step h hreading with hsame | ⟨hwaiting, rfl⟩ | ⟨scan, hscan, hnext⟩
  · exact hs scan' hsame
  · have hthere := hkept side ⟨by rw [hwaiting]; trivial, hwritten⟩
    refine Scan.covers_start ?_ hthere _
    rw [Pair.key_not]
    exact signalPrefix_signalKey _ _ _
  · cases hpeer : scan.found.peer with
    | none =>
        have hthere := hkept side ⟨by rw [hscan]; exact hpeer, hwritten⟩
        obtain ⟨data, hdata⟩ := Option.isSome_iff_exists.mp hthere
        have hsignal := hsound.genuine _ data hdata
        refine (hs scan hscan).next (fun found data hfound => hfound.addSignal data) ?_ hnext
        exact ⟨data, hdata, foundPeer_of_signalOf (p.ids_ne side) hsignal⟩
    | some sig =>
        have hfound := hsound.named side scan hscan (by simp [hpeer])
        right
        rcases peer_next hnext with heq | hfound'
        · rw [FoundPeer, heq]
          exact hfound
        · exact hfound'

/-- Both sides have written, and all that is needed for the poll of one to succeed. -/
structure Meets (j : Marshaller Signal) (p : Pair) (side : Bool) (s : Rendezvous) : Prop where
  sound : Sound j p s
  kept : Kept p s
  stocked : Stocked p s
  written : s.phases (!side) ≠ .write
  finds : Finds p side s

theorem meets_step {side : Bool} (hs : Meets j p side s) (hspares : s.Spares p l)
    (h : s.step j p l = some t) : Meets j p side t where
  sound := sound_step hs.sound h
  kept := (kept_step_iff hs.kept hs.stocked h).mpr hspares
  stocked := stocked_step hs.stocked h
  written := written_step hs.written h
  finds := finds_step hs.finds hs.sound hs.kept hs.written h

private theorem exec_gets {side : Bool} {todo : List String} {found : Signals}
    (hreading : s.phases side = .reading ⟨todo, found⟩) :
    ∃ t found', exec (step j p) s (List.replicate todo.length ⟨side, .get⟩) = some t ∧
      t.phases side = .reading ⟨[], found'⟩ := by
  induction todo generalizing s found with
  | nil => exact ⟨s, found, rfl, hreading⟩
  | cons key todo ih =>
      obtain ⟨found', hnext⟩ := Scan.next_of_cons (addSignal j (p.ids side) (p.ids !side))
        s.store key todo found
      have hstep : s.step j p ⟨side, .get⟩ =
          some ⟨s.store, Function.update s.phases side (.reading ⟨todo, found'⟩)⟩ := by
        simp [step, operate, hreading, hnext]
      have hreading' := Function.update_self side (Phase.reading ⟨todo, found'⟩) s.phases
      obtain ⟨t, found'', hrun, hdone⟩ :=
        ih (s := ⟨s.store, Function.update s.phases side (.reading ⟨todo, found'⟩)⟩) hreading'
      exact ⟨t, found'', exec_cons_eq_some.mpr ⟨_, hstep, hrun⟩, hdone⟩

def restOfPoll (side : Bool) (scan : Scan Signals) : List Label :=
  List.replicate scan.todo.length ⟨side, .get⟩ ++ [⟨side, .endPoll⟩]

private theorem meets_restOfPoll {side : Bool} {scan : Scan Signals} (hs : Meets j p side s)
    (hreading : s.phases side = .reading scan) :
    ∃ t peer, exec (step j p) s (restOfPoll side scan) = some t ∧
      t.phases side = .dialing peer ∧ peer.nodeID = p.ids !side := by
  obtain ⟨u, found, hgets, hdone⟩ := exec_gets hreading
  have hspares : Along (step j p) (Spares p) s
      (List.replicate scan.todo.length ⟨side, .get⟩) := by
    refine (along_of_forall (P := fun l => l.op = .get) ?_).imp ?_
    · intro l hl
      rw [List.eq_of_mem_replicate hl]
    · intro s l hl
      simp [Spares, deleted, writes, hl]
  have hu : Meets j p side u :=
    exec_invariant_of_along (Meets j p side) (fun _ _ _ hs hspares h => meets_step hs hspares h)
      hs hspares hgets
  have hfound : FoundPeer (p.ids !side) found := (hu.finds _ hdone).resolve_left (by simp)
  obtain ⟨peer, hpeer, hid⟩ := hfound
  have hstep : u.step j p ⟨side, .endPoll⟩ =
      some ⟨u.store, Function.update u.phases side (.dialing peer)⟩ := by
    simp [step, operate, hdone, hpeer]
  refine ⟨_, peer, exec_snoc_eq_some.mpr ⟨u, hgets, hstep⟩, ?_, hid⟩
  exact Function.update_self side _ u.phases

/--
A signal that is waited for stays in the store exactly if no cleanup deletes it
meanwhile, and no side writes its own when its peer has cleaned up already.  A
poll that is begun after both sides have written then finds the peer.
-/
theorem rendezvous_mutual_iff (j : Marshaller Signal) (p : Pair) (store : MemoryObjectStore)
    (hclean : ∀ key, (signalPrefix (p.ids true) (p.ids false)).toList <+: key.toList →
      store.contents key = none)
    (labels : List Label) (t : Rendezvous)
    (hrun : exec (step j p) (initial store) labels = some t) :
    ((∀ before after s, labels = before ++ after →
        exec (step j p) (initial store) before = some s →
        ∀ side, s.Awaits side → (s.store.contents (p.key !side)).isSome) ↔
      Along (step j p) (Spares p) (initial store) labels) ∧
    (Along (step j p) (Spares p) (initial store) labels →
      ∀ before after s side scan, labels = before ++ after →
        exec (step j p) (initial store) before = some s →
        s.phases side = .waiting → s.phases (!side) ≠ .write →
        t.phases side = .reading scan →
        ∃ u peer, exec (step j p) t (restOfPoll side scan) = some u ∧
          u.phases side = .dialing peer ∧ peer.nodeID = p.ids !side) := by
  have hall := always_iff_along (fun s => Kept p s ∧ Stocked p s)
    (fun s _ t hs h => (and_iff_left (stocked_step hs.2 h)).trans (kept_step_iff hs.1 hs.2 h))
    ⟨kept_initial p store, stocked_initial p store⟩ hrun
  have hstocked : ∀ before s, exec (step j p) (initial store) before = some s → Stocked p s :=
    fun _ _ hbefore => exec_invariant (Stocked p) (fun _ _ _ hs h => stocked_step hs h)
      (stocked_initial p store) hbefore
  constructor
  · refine ⟨fun hkept => hall.mp fun before after s hsplit hbefore => ?_,
      fun hspares before after s hsplit hbefore => (hall.mpr hspares before after s hsplit hbefore).1⟩
    exact ⟨hkept before after s hsplit hbefore, hstocked before s hbefore⟩
  · rintro hspares before after s side scan rfl hbefore hwaiting hwritten hreading
    rw [exec_append_of_eq_some hbefore] at hrun
    obtain ⟨hfirst, hthen⟩ := (along_append hbefore).mp hspares
    have hempty : ∀ side, store.contents (p.key side) = none := by
      intro side
      exact hclean _ (p.signalPrefix_key side)
    have hsound : Sound j p s := exec_invariant (Sound j p) (fun _ _ _ hs h => sound_step hs h)
      (sound_initial hempty) hbefore
    have hkept : Kept p s := (hall.mpr hspares before after s rfl hbefore).1
    have hfinds : Finds p side s := by
      intro scan hscan
      cases hwaiting.symm.trans hscan
    have ht : Meets j p side t :=
      exec_invariant_of_along (Meets j p side) (fun _ _ _ hs hspares h => meets_step hs hspares h)
        ⟨hsound, hkept, hstocked before s hbefore, hwritten, hfinds⟩ hthen hrun
    exact meets_restOfPoll ht hreading

/-! ## A fast and a slow side -/

def samplePair : Pair where
  ids side := if side then "a" else "b"
  addrs side := if side then "192.0.2.1:7946" else "192.0.2.2:7946"
  distinct := by decide

def sampleSignals : List Signal :=
  [⟨"a", "192.0.2.1:7946", "0a", 1⟩, ⟨"b", "192.0.2.2:7946", "0b", 2⟩]

def sampleCodec : Marshaller Signal := .ofList sampleSignals (by decide)

def bothWrite : List Label := [⟨true, .write "0a" 1⟩, ⟨false, .write "0b" 2⟩]

def dialFirst : List Label :=
  -- `a` polls, finds `b` and dials
  [⟨true, .poll⟩, ⟨true, .get⟩, ⟨true, .get⟩, ⟨true, .endPoll⟩]

def cleanUpFirst : List Label :=
  -- `a` is done and removes the signals of both
  [⟨true, .endDial⟩, ⟨true, .listKeys⟩, ⟨true, .delete⟩, ⟨true, .delete⟩]

theorem rendezvous_mutual_cleanUpLate :
    ∃ (t : Rendezvous) (scan : Scan Signals) (u : Rendezvous) (peer : Signal),
      exec (step sampleCodec samplePair) (initial .empty)
        (bothWrite ++ (dialFirst ++ [⟨false, .poll⟩, ⟨false, .get⟩] ++ cleanUpFirst)) = some t ∧
      t.phases false = .reading scan ∧
      exec (step sampleCodec samplePair) t (restOfPoll false scan) = some u ∧
      u.phases false = .dialing peer ∧ peer.nodeID = "a" := by
  have hsome : (exec (step sampleCodec samplePair) (initial .empty) bothWrite).isSome := by
    decide
  obtain ⟨s, hs⟩ := Option.isSome_iff_exists.mp hsome
  have hrest : ∀ s, exec (step sampleCodec samplePair) (initial .empty) bothWrite = some s →
      s.phases false = .waiting ∧ s.phases true ≠ .write ∧
      (exec (step sampleCodec samplePair) s
        (dialFirst ++ [⟨false, .poll⟩, ⟨false, .get⟩] ++ cleanUpFirst)).map
          (fun t => t.phases false) =
        some (.reading ⟨[samplePair.key false],
          ⟨none, some ⟨"a", "192.0.2.1:7946", "0a", 1⟩⟩⟩) := by
    decide
  obtain ⟨hwaiting, hwritten, hend⟩ := hrest s hs
  obtain ⟨t, ht, hreading⟩ := Option.map_eq_some_iff.mp hend
  have hrun := exec_append_eq_some.mpr ⟨s, hs, ht⟩
  obtain ⟨u, peer, hpoll, hdialing, hid⟩ :=
    (rendezvous_mutual_iff sampleCodec samplePair .empty (fun _ _ => rfl) _ t hrun).2
      (by decide) _ _ s false _ rfl hs hwaiting hwritten hreading
  exact ⟨t, _, u, peer, hrun, hreading, hpoll, hdialing, hid⟩

/-- `a` has dialed and cleaned up; `b` waits for a signal that is gone, and polls in vain. -/
theorem cleanUpEarly_not_mutual :
    (exec (step sampleCodec samplePair) (initial .empty)
      (bothWrite ++ dialFirst ++ cleanUpFirst ++ [⟨false, .poll⟩])).map
        (fun t => (decide (t.Awaits false), t.store.contents (samplePair.key true),
          t.phases false)) =
      some (true, none, .reading ⟨[], ⟨none, none⟩⟩) := by
  decide

end Rendezvous

end GossipMesh.Holepunch
