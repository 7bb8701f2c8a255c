import GossipMesh.Foundation.Interleaving
import GossipMesh.Mesh.Membership

/-!
# The metadata of the own node

`UpdateMeta` swaps a pointer to the node's metadata, and starts over when the
pointer has changed since it was loaded.  Callers are the handlers of completed
pings, which refresh the Vivaldi coordinate, and the application.  A pointer is
known by the number of swaps before it, since every swap brings in a new one.
Afterwards memberlist is told to ask for the metadata; the answer is read at one
time and taken at another.
-/

namespace GossipMesh.Membership

open GossipMesh.Foundation

variable {Coord : Type}

inductive MetaUpdate (Coord : Type) where
  | refresh
  | edit (fn : NodeMeta Coord → NodeMeta Coord)

def MetaUpdate.run (coordinate : Coord) : MetaUpdate Coord → NodeMeta Coord → NodeMeta Coord
  | .refresh, nodeMeta => { nodeMeta with vivaldiCoord := some coordinate }
  | .edit fn, nodeMeta => fn nodeMeta

structure MetaMemory (Coord : Type) where
  -- that of the Vivaldi client
  coordinate : Coord
  -- whether memberlist is there to be notified
  list : Bool
  pointer : Nat
  nodeMeta : NodeMeta Coord
  requested : List (MetaUpdate Coord)
  -- the updates that took effect, with the coordinates they read
  applied : List (MetaUpdate Coord × Coord)
  -- what memberlist was last told
  advertised : Option Bytes

/-- Where a caller is, named by its next operation. -/
inductive MetaPoint (Coord : Type) where
  | pingComplete (payload : Bytes)
  | vivaldiUpdate (coord : Coord)
  | load (update : MetaUpdate Coord)
  | apply (update : MetaUpdate Coord) (old : Nat) (nodeMeta : NodeMeta Coord)
  | swap (update : MetaUpdate Coord) (old : Nat) (read : Coord) (updated : NodeMeta Coord)
  | updateNode
  | handOver (data : Option Bytes)
  | done

inductive MetaChoice (Coord : Type) where
  | proceed
  | moved (coordinate : Coord)
  | rejected

structure MetaCodec (Coord : Type) where
  unmarshal : Bytes → Option Coord
  isValid : Coord → Bool
  encode : NodeMeta Coord → Option Bytes
  limit : Nat

def MetaCodec.answer (codec : MetaCodec Coord) (nodeMeta : NodeMeta Coord) : Option Bytes :=
  (codec.encode nodeMeta).bind fun data =>
    if data.length > codec.limit then none else some data

namespace MetaMemory

def operate (codec : MetaCodec Coord) (m : MetaMemory Coord) :
    MetaPoint Coord → MetaChoice Coord →
      Option (MetaMemory Coord × MetaPoint Coord × List (MetaPoint Coord))
  | .pingComplete payload, .proceed =>
      match codec.unmarshal payload with
      | none => some (m, .done, [])
      | some coord =>
          some (m, if codec.isValid coord then .vivaldiUpdate coord else .done, [])
  | .vivaldiUpdate _, .moved coordinate =>
      some ({ m with coordinate := coordinate, requested := m.requested ++ [.refresh] },
        .load .refresh, [])
  | .vivaldiUpdate _, .rejected => some (m, .done, [])
  | .load update, .proceed => some (m, .apply update m.pointer m.nodeMeta, [])
  | .apply update old nodeMeta, .proceed =>
      some (m, .swap update old m.coordinate (update.run m.coordinate nodeMeta), [])
  | .swap update old read updated, .proceed =>
      if m.pointer = old then
        some ({ m with
          pointer := m.pointer + 1
          nodeMeta := updated
          applied := m.applied ++ [(update, read)] },
          if m.list then .updateNode else .done, [])
      else some (m, .load update, [])
  | .updateNode, .proceed => some (m, .handOver (codec.answer m.nodeMeta), [])
  | .handOver data, .proceed => some ({ m with advertised := data }, .done, [])
  | _, _ => none

end MetaMemory

abbrev MetaThreads (Coord : Type) := Threads (MetaMemory Coord) (MetaPoint Coord)

inductive MetaCall (Coord : Type) where
  | notifyPingComplete (payload : Bytes)
  | updateMeta (fn : NodeMeta Coord → NodeMeta Coord)

def MetaCall.point : MetaCall Coord → MetaPoint Coord
  | .notifyPingComplete payload => .pingComplete payload
  | .updateMeta fn => .load (.edit fn)

def MetaCall.update : MetaCall Coord → Option (MetaUpdate Coord)
  | .notifyPingComplete _ => none
  | .updateMeta fn => some (.edit fn)

namespace MetaThreads

def seed (coordinate : Coord) (nodeMeta : NodeMeta Coord) : NodeMeta Coord :=
  { nodeMeta with vivaldiCoord := some coordinate }

def start (codec : MetaCodec Coord) (list : Bool) (coordinate : Coord)
    (nodeMeta : NodeMeta Coord) (calls : List (MetaCall Coord)) : MetaThreads Coord where
  memory :=
    -- `memberlist.Create` has asked for the metadata that `Start` stored
    { coordinate := coordinate
      list := list
      pointer := 0
      nodeMeta := seed coordinate nodeMeta
      requested := calls.filterMap MetaCall.update
      applied := []
      advertised := codec.answer (seed coordinate nodeMeta) }
  routines := calls.map MetaCall.point

def step (codec : MetaCodec Coord) :
    MetaThreads Coord → Nat × MetaChoice Coord → Option (MetaThreads Coord) :=
  Threads.step (MetaMemory.operate codec)

end MetaThreads

/-! ## Operations -/

inductive Updates (codec : MetaCodec Coord) (m : MetaMemory Coord) :
    MetaPoint Coord → MetaMemory Coord → MetaPoint Coord → Prop
  | ignored (payload : Bytes) : Updates codec m (.pingComplete payload) m .done
  | valid (payload : Bytes) (coord : Coord) :
      Updates codec m (.pingComplete payload) m (.vivaldiUpdate coord)
  | moved (coord coordinate : Coord) :
      Updates codec m (.vivaldiUpdate coord)
        { m with coordinate := coordinate, requested := m.requested ++ [.refresh] }
        (.load .refresh)
  | rejected (coord : Coord) : Updates codec m (.vivaldiUpdate coord) m .done
  | load (update : MetaUpdate Coord) :
      Updates codec m (.load update) m (.apply update m.pointer m.nodeMeta)
  | apply (update : MetaUpdate Coord) (old : Nat) (nodeMeta : NodeMeta Coord) :
      Updates codec m (.apply update old nodeMeta) m
        (.swap update old m.coordinate (update.run m.coordinate nodeMeta))
  | swap (update : MetaUpdate Coord) (read : Coord) (updated : NodeMeta Coord) :
      Updates codec m (.swap update m.pointer read updated)
        { m with
          pointer := m.pointer + 1
          nodeMeta := updated
          applied := m.applied ++ [(update, read)] }
        (if m.list then .updateNode else .done)
  | updateNode : Updates codec m .updateNode m (.handOver (codec.answer m.nodeMeta))
  | handOver (data : Option Bytes) :
      Updates codec m (.handOver data) { m with advertised := data } .done
  | retry (update : MetaUpdate Coord) (old : Nat) (read : Coord) (updated : NodeMeta Coord)
      (hne : m.pointer ≠ old) : Updates codec m (.swap update old read updated) m (.load update)

theorem updates_of_operate {codec : MetaCodec Coord} {m m' : MetaMemory Coord}
    {p p' : MetaPoint Coord} {c : MetaChoice Coord} {new : List (MetaPoint Coord)}
    (h : m.operate codec p c = some (m', p', new)) : new = [] ∧ Updates codec m p m' p' := by
  unfold MetaMemory.operate at h
  split at h
  case h_1 payload =>
      split at h
      · cases h
        exact ⟨rfl, .ignored payload⟩
      · next coord hcoord =>
          cases h
          refine ⟨rfl, ?_⟩
          split
          · exact .valid payload coord
          · exact .ignored payload
  case h_6 update old read updated =>
      split at h
      · next heq =>
          cases h
          subst heq
          exact ⟨rfl, .swap update read updated⟩
      · next hne =>
          cases h
          exact ⟨rfl, .retry update old read updated hne⟩
  case h_9 => cases h
  all_goals
    cases h
    exact ⟨rfl, by constructor⟩

/-! ## No update is lost -/

def MetaPoint.pending : MetaPoint Coord → Multiset (MetaUpdate Coord)
  | .load update | .apply update _ _ | .swap update _ _ _ => {update}
  | _ => 0

/-- What a caller has loaded is what the pointer points to, as long as it is the same. -/
def MetaPoint.Current (m : MetaMemory Coord) : MetaPoint Coord → Prop
  | .apply _ old nodeMeta => old ≤ m.pointer ∧ (old = m.pointer → nodeMeta = m.nodeMeta)
  | .swap update old read updated =>
      old ≤ m.pointer ∧ (old = m.pointer → updated = update.run read m.nodeMeta)
  | _ => True

def MetaMemory.asked (m : MetaMemory Coord) : Multiset (MetaUpdate Coord) := m.requested

def MetaMemory.made (m : MetaMemory Coord) : Multiset (MetaUpdate Coord) :=
  (m.applied.map Prod.fst : List (MetaUpdate Coord))

/-- One update after the other, each with the coordinate it read. -/
def replay (applied : List (MetaUpdate Coord × Coord)) (nodeMeta : NodeMeta Coord) :
    NodeMeta Coord :=
  applied.foldl (fun nodeMeta u => u.1.run u.2 nodeMeta) nodeMeta

@[simp] theorem replay_snoc (applied : List (MetaUpdate Coord × Coord))
    (u : MetaUpdate Coord × Coord) (nodeMeta : NodeMeta Coord) :
    replay (applied ++ [u]) nodeMeta = u.1.run u.2 (replay applied nodeMeta) := by
  simp [replay]

namespace Updates

variable {codec : MetaCodec Coord} {m m' : MetaMemory Coord} {p p' q : MetaPoint Coord}

theorem pointer_cases (h : Updates codec m p m' p') :
    (m'.pointer = m.pointer ∧ m'.nodeMeta = m.nodeMeta) ∨ m'.pointer = m.pointer + 1 := by
  cases h with
  | swap => exact .inr rfl
  | _ => exact .inl ⟨rfl, rfl⟩

private theorem pointer_le (h : Updates codec m p m' p') : m.pointer ≤ m'.pointer := by
  obtain ⟨hpointer, -⟩ | hpointer := h.pointer_cases <;> omega

theorem loaded_eq {old : Nat} (h : Updates codec m p m' p') (hle : old ≤ m.pointer)
    (heq : old = m'.pointer) : old = m.pointer ∧ m'.nodeMeta = m.nodeMeta := by
  -- a pointer loaded before is the present one only if no swap came between
  obtain ⟨hpointer, hmeta⟩ | hpointer := h.pointer_cases
  · exact ⟨heq.trans hpointer, hmeta⟩
  · omega

theorem current_other (h : Updates codec m p m' p') (hq : q.Current m) : q.Current m' := by
  cases q with
  | apply update old nodeMeta =>
      refine ⟨hq.1.trans h.pointer_le, fun heq => ?_⟩
      obtain ⟨hold, hmeta⟩ := h.loaded_eq hq.1 heq
      rw [hmeta, hq.2 hold]
  | swap update old read updated =>
      refine ⟨hq.1.trans h.pointer_le, fun heq => ?_⟩
      obtain ⟨hold, hmeta⟩ := h.loaded_eq hq.1 heq
      rw [hmeta, hq.2 hold]
  | _ => trivial

theorem current_self (h : Updates codec m p m' p') (hp : p.Current m) : p'.Current m' := by
  cases h with
  | load => exact ⟨le_rfl, fun _ => rfl⟩
  | apply update old nodeMeta => exact ⟨hp.1, fun heq => by rw [hp.2 heq]⟩
  | swap => split <;> trivial
  | _ => trivial

theorem balance (h : Updates codec m p m' p') :
    ∃ d, m'.asked = m.asked + d ∧ m'.made + p'.pending = m.made + p.pending + d := by
  cases h with
  | moved =>
      refine ⟨{.refresh}, ?_, ?_⟩
      · simp [MetaMemory.asked, ← Multiset.coe_add]
      · simp [MetaMemory.made, MetaPoint.pending]
  | swap update read updated =>
      refine ⟨0, by simp [MetaMemory.asked], ?_⟩
      split <;> simp [MetaMemory.made, MetaPoint.pending, ← Multiset.coe_add]
  | _ => exact ⟨0, by simp [MetaMemory.asked], by simp [MetaMemory.made, MetaPoint.pending]⟩

theorem replay_eq {first : NodeMeta Coord} (h : Updates codec m p m' p') (hp : p.Current m)
    (hm : m.nodeMeta = replay m.applied first) : m'.nodeMeta = replay m'.applied first := by
  cases h with
  | swap update read updated => rw [replay_snoc, ← hm, hp.2 rfl]
  | _ => exact hm

end Updates

namespace MetaThreads

variable {codec : MetaCodec Coord} {s t : MetaThreads Coord} {first : NodeMeta Coord}
  {l : Nat × MetaChoice Coord}

theorem updates_of_step (h : step codec s l = some t) :
    ∃ before p after p', s.routines = before ++ p :: after ∧
      Updates codec s.memory p t.memory p' ∧ t.routines = before ++ p' :: after := by
  obtain ⟨before, p, after, p', new, -, hs, hop, ht⟩ := Threads.step_eq_some h
  obtain ⟨rfl, hup⟩ := updates_of_operate hop
  exact ⟨before, p, after, p', hs, hup, by rw [ht, List.append_nil]⟩

/-- The metadata is what the updates that took effect make of the first. -/
structure Linear (first : NodeMeta Coord) (s : MetaThreads Coord) : Prop where
  ledger : s.memory.asked = s.memory.made + Threads.total MetaPoint.pending s.routines
  replayed : s.memory.nodeMeta = replay s.memory.applied first
  current : ∀ p ∈ s.routines, p.Current s.memory

theorem current_step (hs : ∀ p ∈ s.routines, p.Current s.memory)
    (h : step codec s l = some t) : ∀ p ∈ t.routines, p.Current t.memory := by
  obtain ⟨before, p, after, p', hsplit, hup, ht⟩ := updates_of_step h
  rw [hsplit] at hs
  rw [ht]
  intro q hq
  rcases Threads.mem_of_move p hq with rfl | hq
  · exact hup.current_self (hs p (by simp))
  · exact hup.current_other (hs q hq)

theorem linear_step (hs : Linear first s) (h : step codec s l = some t) : Linear first t where
  ledger := by
    refine Threads.conservation_step MetaMemory.asked MetaMemory.made MetaPoint.pending
      ?_ hs.ledger h
    intro m p c m' p' new hop
    obtain ⟨rfl, hup⟩ := updates_of_operate hop
    simpa using hup.balance
  replayed := by
    obtain ⟨before, p, after, p', hsplit, hup, -⟩ := updates_of_step h
    exact hup.replay_eq (hs.current p (by simp [hsplit])) hs.replayed
  current := current_step hs.current h

private theorem total_pending_calls (calls : List (MetaCall Coord)) :
    Threads.total MetaPoint.pending (calls.map MetaCall.point) =
      (calls.filterMap MetaCall.update : Multiset (MetaUpdate Coord)) := by
  induction calls with
  | nil => rfl
  | cons call calls ih =>
      cases call with
      | notifyPingComplete payload =>
          have hnone : (MetaCall.notifyPingComplete payload : MetaCall Coord).update = none := rfl
          rw [List.filterMap_cons_none hnone, ← ih]
          simp [MetaCall.point, MetaPoint.pending]
      | updateMeta fn =>
          have hsome : MetaCall.update (.updateMeta fn) = some (.edit fn) := rfl
          rw [List.filterMap_cons_some hsome, ← Multiset.cons_coe, ← ih]
          simp [MetaCall.point, MetaPoint.pending]

theorem linear_start (list : Bool) (coordinate : Coord) (nodeMeta : NodeMeta Coord)
    (calls : List (MetaCall Coord)) :
    Linear (seed coordinate nodeMeta) (start codec list coordinate nodeMeta calls) where
  ledger := by simp [start, MetaMemory.asked, MetaMemory.made, total_pending_calls]
  replayed := rfl
  current := by
    intro p hp
    obtain ⟨call, -, rfl⟩ := List.mem_map.mp hp
    cases call <;> trivial

theorem linear_run {list : Bool} {coordinate : Coord} {nodeMeta : NodeMeta Coord}
    {calls : List (MetaCall Coord)} {labels : List (Nat × MetaChoice Coord)}
    (h : exec (step codec) (start codec list coordinate nodeMeta calls) labels = some s) :
    Linear (seed coordinate nodeMeta) s :=
  exec_invariant (Linear (seed coordinate nodeMeta)) (fun _ _ _ hs hstep => linear_step hs hstep)
    (linear_start list coordinate nodeMeta calls) h

def Quiescent (s : MetaThreads Coord) : Prop := ∀ p ∈ s.routines, p = .done

private theorem total_pending_of_quiescent (hs : s.Quiescent) :
    Threads.total MetaPoint.pending s.routines = 0 := by
  refine Multiset.eq_zero_of_forall_notMem fun u hu => ?_
  obtain ⟨p, hp, hu⟩ := Threads.mem_total.mp hu
  rw [hs p hp] at hu
  exact Multiset.notMem_zero u hu

/--
Whatever the interleaving, the metadata results from updates made one after the
other.  These are the updates asked for and not still in progress, so none is
lost and none is made twice.
-/
theorem updates_linear {list : Bool} {coordinate : Coord} {nodeMeta : NodeMeta Coord}
    {calls : List (MetaCall Coord)} {labels : List (Nat × MetaChoice Coord)}
    (h : exec (step codec) (start codec list coordinate nodeMeta calls) labels = some s) :
    s.memory.nodeMeta = replay s.memory.applied (seed coordinate nodeMeta) ∧
      s.memory.asked = s.memory.made + Threads.total MetaPoint.pending s.routines ∧
      (s.Quiescent → (s.memory.applied.map Prod.fst).Perm s.memory.requested) := by
  have hs := linear_run h
  refine ⟨hs.replayed, hs.ledger, fun hquiet => ?_⟩
  have hledger := hs.ledger
  rw [total_pending_of_quiescent hquiet, add_zero] at hledger
  exact Multiset.coe_eq_coe.mp hledger.symm

end MetaThreads

/-! ## The advertised coordinate -/

/-- A refresh that will store the present coordinate, or a later one. -/
def MetaPoint.Due (m : MetaMemory Coord) : MetaPoint Coord → Prop
  | .load .refresh | .apply .refresh _ _ => True
  | .swap .refresh old read _ => old = m.pointer → read = m.coordinate
  | _ => False

/-- A refresh about to store a coordinate that is no longer the present one. -/
def MetaPoint.Stale (m : MetaMemory Coord) : MetaPoint Coord → Prop
  | .swap .refresh old read _ => old = m.pointer ∧ read ≠ m.coordinate
  | _ => False

def MetaMemory.Fresh (m : MetaMemory Coord) : Prop :=
  m.nodeMeta.vivaldiCoord = some m.coordinate

def MetaPoint.Keeps : MetaPoint Coord → Prop
  | .load (.edit fn) | .apply (.edit fn) _ _ | .swap (.edit fn) _ _ _ =>
      ∀ nodeMeta, (fn nodeMeta).vivaldiCoord = nodeMeta.vivaldiCoord
  | _ => True

namespace Updates

variable {codec : MetaCodec Coord} {m m' : MetaMemory Coord} {p p' q : MetaPoint Coord}

theorem keeps (h : Updates codec m p m' p') (hp : p.Keeps) : p'.Keeps := by
  cases h with
  | load update | apply update | retry update =>
      cases update with
      | refresh => trivial
      | edit fn => exact hp
  | swap => split <;> trivial
  | _ => trivial

theorem list_eq (h : Updates codec m p m' p') : m'.list = m.list := by
  cases h <;> rfl

theorem coordinate_cases (h : Updates codec m p m' p') :
    m'.coordinate = m.coordinate ∨ p' = .load .refresh := by
  cases h with
  | moved => exact .inr rfl
  | _ => exact .inl rfl

theorem due_other (h : Updates codec m p m' p') (hcoordinate : m'.coordinate = m.coordinate)
    (hcurrent : q.Current m) (hq : q.Due m) : q.Due m' := by
  cases q with
  | load update =>
      cases update with
      | refresh => trivial
      | edit fn => exact hq
  | apply update =>
      cases update with
      | refresh => trivial
      | edit fn => exact hq
  | swap update old read updated =>
      cases update with
      | refresh =>
          intro heq
          rw [hcoordinate]
          exact hq (h.loaded_eq hcurrent.1 heq).1
      | edit fn => exact hq
  | _ => exact hq

theorem not_stale_other (h : Updates codec m p m' p')
    (hcoordinate : m'.coordinate = m.coordinate) (hcurrent : q.Current m) (hq : ¬ q.Stale m) :
    ¬ q.Stale m' := by
  intro hstale
  cases q with
  | swap update old read updated =>
      cases update with
      | refresh =>
          obtain ⟨heq, hread⟩ := hstale
          rw [hcoordinate] at hread
          exact hq ⟨(h.loaded_eq hcurrent.1 heq).1, hread⟩
      | edit fn => exact hstale
  | _ => exact hstale

theorem due_self (h : Updates codec m p m' p') (hp : p.Due m) (hcurrent : p.Current m) :
    p'.Due m' ∨ (m'.Fresh ∧ m'.pointer = m.pointer + 1 ∧ ¬ p'.Stale m') := by
  cases h with
  | load update =>
      cases update with
      | refresh => exact .inl trivial
      | edit fn => exact hp.elim
  | apply update old nodeMeta =>
      cases update with
      | refresh => exact .inl fun _ => rfl
      | edit fn => exact hp.elim
  | retry update =>
      cases update with
      | refresh => exact .inl trivial
      | edit fn => exact hp.elim
  | swap update read updated =>
      cases update with
      | refresh =>
          refine .inr ⟨?_, rfl, ?_⟩
          · rw [MetaMemory.Fresh, hcurrent.2 rfl, hp rfl]
            rfl
          · split <;> exact id
      | edit fn => exact hp.elim
  | _ => exact hp.elim

theorem fresh_self (h : Updates codec m p m' p') (hcurrent : p.Current m) (hkeeps : p.Keeps)
    (hp : ¬ p.Stale m) (hfresh : m.Fresh) : p'.Due m' ∨ (m'.Fresh ∧ ¬ p'.Stale m') := by
  cases h with
  | moved => exact .inl trivial
  | load update => exact .inr ⟨hfresh, id⟩
  | apply update old nodeMeta =>
      cases update with
      | refresh => exact .inl fun _ => rfl
      | edit fn => exact .inr ⟨hfresh, id⟩
  | swap update read updated =>
      refine .inr ⟨?_, by split <;> exact id⟩
      rw [MetaMemory.Fresh, hcurrent.2 rfl]
      cases update with
      | refresh =>
          have hread : read = m.coordinate := by
            by_contra hne
            exact hp ⟨rfl, hne⟩
          rw [hread]
          rfl
      | edit fn => exact (hkeeps m.nodeMeta).trans hfresh
  | _ => exact .inr ⟨hfresh, id⟩

theorem not_stale_of_pointer_lt (hcurrent : q.Current m) (hlt : m.pointer < m'.pointer) :
    ¬ q.Stale m' := by
  intro hstale
  cases q with
  | swap update old read updated =>
      cases update with
      | refresh => exact absurd (hstale.1 ▸ hcurrent.1) (Nat.not_le.mpr hlt)
      | edit fn => exact hstale
  | _ => exact hstale

theorem applied_prefix (h : Updates codec m p m' p') : m.applied <+: m'.applied := by
  cases h with
  | swap => exact List.prefix_append _ _
  | _ => exact List.prefix_rfl

end Updates

namespace MetaThreads

variable {codec : MetaCodec Coord} {s t : MetaThreads Coord} {l : Nat × MetaChoice Coord}

structure Refreshed (s : MetaThreads Coord) : Prop where
  current : ∀ p ∈ s.routines, p.Current s.memory
  keeps : ∀ p ∈ s.routines, p.Keeps
  coordinate : (∃ p ∈ s.routines, p.Due s.memory) ∨
    (s.memory.Fresh ∧ ∀ p ∈ s.routines, ¬ p.Stale s.memory)

private theorem keeps_step (hs : ∀ p ∈ s.routines, p.Keeps) (h : step codec s l = some t) :
    ∀ p ∈ t.routines, p.Keeps := by
  obtain ⟨before, p, after, p', hsplit, hup, ht⟩ := updates_of_step h
  rw [hsplit] at hs
  rw [ht]
  intro q hq
  rcases Threads.mem_of_move p hq with rfl | hq
  · exact hup.keeps (hs p (by simp))
  · exact hs q hq

private theorem coordinate_step (hs : s.Refreshed) (h : step codec s l = some t) :
    (∃ p ∈ t.routines, p.Due t.memory) ∨
      (t.memory.Fresh ∧ ∀ p ∈ t.routines, ¬ p.Stale t.memory) := by
  obtain ⟨before, p, after, p', hsplit, hup, ht⟩ := updates_of_step h
  have hp : p ∈ s.routines := by simp [hsplit]
  have hp' : p' ∈ t.routines := by simp [ht]
  have hothers : ∀ q, q ∈ t.routines → q = p' ∨ q ∈ s.routines := by
    intro q hq
    rw [hsplit]
    rw [ht] at hq
    exact Threads.mem_of_move p hq
  rcases hup.coordinate_cases with hcoordinate | hload
  · rcases hs.coordinate with ⟨q, hq, hdue⟩ | ⟨hfresh, hstale⟩
    · have hcase : q = p ∨ q ∈ t.routines := by
        rw [hsplit] at hq
        rw [ht]
        exact Threads.mem_of_move p' hq
      rcases hcase with rfl | hq'
      · rcases hup.due_self hdue (hs.current q hq) with hdue' | ⟨hfresh, hnext, hself⟩
        · exact .inl ⟨p', hp', hdue'⟩
        · refine .inr ⟨hfresh, fun q' hq' => ?_⟩
          rcases hothers q' hq' with rfl | hq'
          · exact hself
          · exact Updates.not_stale_of_pointer_lt (hs.current q' hq') (by omega)
      · exact .inl ⟨q, hq', hup.due_other hcoordinate (hs.current q hq) hdue⟩
    · rcases hup.fresh_self (hs.current p hp) (hs.keeps p hp) (hstale p hp) hfresh with
        hdue' | ⟨hfresh', hself⟩
      · exact .inl ⟨p', hp', hdue'⟩
      · refine .inr ⟨hfresh', fun q' hq' => ?_⟩
        rcases hothers q' hq' with rfl | hq'
        · exact hself
        · exact hup.not_stale_other hcoordinate (hs.current q' hq') (hstale q' hq')
  · refine .inl ⟨p', hp', ?_⟩
    rw [hload]
    trivial

theorem refreshed_step (hs : s.Refreshed) (h : step codec s l = some t) : t.Refreshed where
  current := current_step hs.current h
  keeps := keeps_step hs.keeps h
  coordinate := coordinate_step hs h

theorem refreshed_start {list : Bool} {coordinate : Coord} {nodeMeta : NodeMeta Coord}
    {calls : List (MetaCall Coord)} (hcalls : ∀ call ∈ calls, call.point.Keeps) :
    (start codec list coordinate nodeMeta calls).Refreshed where
  current := (linear_start list coordinate nodeMeta calls : Linear _ (start codec _ _ _ _)).current
  keeps := by
    intro p hp
    obtain ⟨call, hcall, rfl⟩ := List.mem_map.mp hp
    exact hcalls call hcall
  coordinate := by
    refine .inr ⟨rfl, fun p hp => ?_⟩
    obtain ⟨call, -, rfl⟩ := List.mem_map.mp hp
    cases call <;> exact id

/-! ## What memberlist is given -/

end MetaThreads

def MetaPoint.asks : MetaPoint Coord → Bool
  | .updateNode => true
  | _ => false

def MetaPoint.answers : MetaPoint Coord → Bool
  | .handOver _ => true
  | _ => false

namespace MetaThreads

variable {codec : MetaCodec Coord} {s t : MetaThreads Coord} {first : NodeMeta Coord}
  {l : Nat × MetaChoice Coord}

/-- The answer for the metadata as it was after some of the updates made. -/
def OfPast (codec : MetaCodec Coord) (first : NodeMeta Coord) (m : MetaMemory Coord)
    (data : Option Bytes) : Prop :=
  ∃ made, made <+: m.applied ∧ data = codec.answer (replay made first)

structure Answered (codec : MetaCodec Coord) (first : NodeMeta Coord) (s : MetaThreads Coord) :
    Prop where
  given : OfPast codec first s.memory s.memory.advertised
  answers : ∀ data, .handOver data ∈ s.routines → OfPast codec first s.memory data

private theorem OfPast.mono {m m' : MetaMemory Coord} {data : Option Bytes}
    (h : OfPast codec first m data) (happlied : m.applied <+: m'.applied) :
    OfPast codec first m' data := by
  obtain ⟨made, hmade, hdata⟩ := h
  exact ⟨made, hmade.trans happlied, hdata⟩

theorem answered_step (hlinear : Linear first s) (hs : Answered codec first s)
    (h : step codec s l = some t) : Answered codec first t := by
  obtain ⟨before, p, after, p', hsplit, hup, ht⟩ := updates_of_step h
  obtain ⟨m', routines⟩ := t
  subst ht
  have hothers : ∀ data, .handOver data ∈ before ++ p' :: after → .handOver data = p' ∨
      OfPast codec first m' data := by
    intro data hdata
    rcases Threads.mem_of_move p hdata with heq | hmem
    · exact .inl heq
    · exact .inr ((hs.answers data (hsplit ▸ hmem)).mono hup.applied_prefix)
  have hgiven := hs.given.mono hup.applied_prefix
  cases hup with
  | updateNode =>
      refine ⟨hgiven, fun data hdata => ?_⟩
      rcases hothers data hdata with heq | hpast
      · cases heq
        exact ⟨s.memory.applied, List.prefix_rfl, by rw [← hlinear.replayed]⟩
      · exact hpast
  | handOver data =>
      refine ⟨(hs.answers data (by simp [hsplit])).mono List.prefix_rfl, fun data' hdata' => ?_⟩
      exact (hothers data' hdata').resolve_left nofun
  | swap =>
      refine ⟨hgiven, fun data hdata => (hothers data hdata).resolve_left ?_⟩
      split <;> nofun
  | _ => exact ⟨hgiven, fun data hdata => (hothers data hdata).resolve_left nofun⟩

/-- Memberlist is not told to ask for the metadata while another answer is on its way. -/
def InTurn (s : MetaThreads Coord) (l : Nat × MetaChoice Coord) : Prop :=
  s.routines[l.1]?.any MetaPoint.asks → ∀ p ∈ s.routines, ¬ p.answers

instance inTurnDecidable (s : MetaThreads Coord) (l : Nat × MetaChoice Coord) :
    Decidable (s.InTurn l) :=
  inferInstanceAs (Decidable (_ → ∀ p ∈ s.routines, ¬ p.answers))

/-- Memberlist is going to ask, or the last answer is that for the present metadata. -/
structure Told (codec : MetaCodec Coord) (s : MetaThreads Coord) : Prop where
  list : s.memory.list = true
  told : .updateNode ∈ s.routines ∨
    (∀ data, .handOver data ∈ s.routines → data = codec.answer s.memory.nodeMeta) ∧
      ((∃ data, .handOver data ∈ s.routines) ∨
        s.memory.advertised = codec.answer s.memory.nodeMeta)

private theorem told_step (hs : Told codec s) (hturn : s.InTurn l) (h : step codec s l = some t) :
    Told codec t := by
  obtain ⟨before, p, after, p', new, hpoint, hsplit, hop, hafter⟩ := Threads.step_eq_some h
  obtain ⟨rfl, hup⟩ := updates_of_operate hop
  rw [List.append_nil] at hafter
  obtain ⟨m', routines⟩ := t
  subst hafter
  refine ⟨hup.list_eq.trans hs.list, ?_⟩
  have hkept : ∀ q, q ∈ s.routines → q ≠ p → q ∈ before ++ p' :: after := by
    intro q hq hne
    rw [hsplit] at hq
    exact (Threads.mem_of_move p' hq).resolve_left hne
  have hothers : ∀ q, q ∈ before ++ p' :: after → q = p' ∨ q ∈ s.routines := by
    intro q hq
    rw [hsplit]
    exact Threads.mem_of_move p hq
  cases hup with
  | updateNode =>
      -- the answer read now is the only one on its way
      refine .inr ⟨fun data hdata => ?_, .inl ⟨codec.answer s.memory.nodeMeta, by simp⟩⟩
      rcases hothers _ hdata with heq | hmem
      · cases heq
        rfl
      · exact absurd rfl (hturn (by rw [hpoint]; rfl) _ hmem)
  | handOver data =>
      rcases hs.told with hmem | ⟨hanswers, -⟩
      · exact .inl (hkept _ hmem nofun)
      · refine .inr ⟨fun data' hdata' => ?_, .inr (hanswers data (by simp [hsplit]))⟩
        exact hanswers data' ((hothers _ hdata').resolve_left nofun)
  | swap => exact .inl (by simp [hs.list])
  | _ =>
      rcases hs.told with hmem | ⟨hanswers, hgiven⟩
      · exact .inl (hkept _ hmem nofun)
      · refine .inr ⟨fun data hdata => hanswers data ((hothers _ hdata).resolve_left nofun), ?_⟩
        rcases hgiven with ⟨data, hdata⟩ | hgiven
        · exact .inl ⟨data, hkept _ hdata nofun⟩
        · exact .inr hgiven

/--
Once every ping and update has returned, the metadata holds the coordinate of
the Vivaldi client: an older coordinate never overwrites a newer one for good,
in any interleaving, as long as the application leaves the coordinate alone.
What memberlist was last given is the encoding of metadata the node has had; it
is that of the present metadata if no two of its questions overlap.
-/
theorem coordinate_advertised {coordinate : Coord} {nodeMeta : NodeMeta Coord}
    {calls : List (MetaCall Coord)} {labels : List (Nat × MetaChoice Coord)}
    (hcalls : ∀ call ∈ calls, call.point.Keeps)
    (h : exec (step codec) (start codec true coordinate nodeMeta calls) labels = some s)
    (hquiet : s.Quiescent) :
    s.memory.nodeMeta.vivaldiCoord = some s.memory.coordinate ∧
      OfPast codec (seed coordinate nodeMeta) s.memory s.memory.advertised ∧
      (Along (step codec) InTurn (start codec true coordinate nodeMeta calls) labels →
        s.memory.advertised = codec.answer s.memory.nodeMeta) := by
  have hnone : ∀ data, .handOver data ∉ (start codec true coordinate nodeMeta calls).routines := by
    intro data hdata
    obtain ⟨call, -, hpoint⟩ := List.mem_map.mp hdata
    cases call <;> cases hpoint
  refine ⟨?_, ?_, fun hturns => ?_⟩
  · have hs : s.Refreshed := exec_invariant Refreshed
      (fun _ _ _ hs hstep => refreshed_step hs hstep) (refreshed_start hcalls) h
    rcases hs.coordinate with ⟨p, hp, hdue⟩ | ⟨hfresh, -⟩
    · rw [hquiet p hp] at hdue
      exact hdue.elim
    · exact hfresh
  · have hs : Linear (seed coordinate nodeMeta) s ∧ Answered codec (seed coordinate nodeMeta) s :=
      exec_invariant (fun s => Linear (seed coordinate nodeMeta) s ∧
        Answered codec (seed coordinate nodeMeta) s)
        (fun _ _ _ hs hstep => ⟨linear_step hs.1 hstep, answered_step hs.1 hs.2 hstep⟩)
        ⟨linear_start true coordinate nodeMeta calls, ⟨[], List.nil_prefix, rfl⟩,
          fun data hdata => absurd hdata (hnone data)⟩ h
    exact hs.2.given
  · have hs : Told codec s := exec_invariant_of_along (Told codec)
      (fun _ _ _ hs hturn hstep => told_step hs hturn hstep)
      ⟨rfl, .inr ⟨fun data hdata => absurd hdata (hnone data), .inr rfl⟩⟩ hturns h
    rcases hs.told with hmem | ⟨-, ⟨data, hmem⟩ | hgiven⟩
    · exact absurd (hquiet _ hmem) nofun
    · exact absurd (hquiet _ hmem) nofun
    · exact hgiven

/-! ## Two pings and an update at once -/

def numbers : MetaCodec Nat where
  unmarshal payload := payload.head?.map UInt8.toNat
  isValid coord := coord < 100
  encode nodeMeta := some [UInt8.ofNat (nodeMeta.vivaldiCoord.getD 0)]
  limit := 512

def movePort (nodeMeta : NodeMeta Nat) : NodeMeta Nat := { nodeMeta with quicPort := 7000 }

def contending : List (MetaCall Nat) :=
  [.notifyPingComplete [1], .notifyPingComplete [2], .updateMeta movePort]

def contention : List (Nat × MetaChoice Nat) :=
  -- the first ping loses two swaps, to the second ping and to the update
  [(0, .proceed), (0, .moved 10), (1, .proceed), (0, .proceed), (0, .proceed),
    (1, .moved 20), (1, .proceed), (1, .proceed), (1, .proceed), (1, .proceed),
    (1, .proceed), (0, .proceed), (2, .proceed), (0, .proceed), (0, .proceed),
    (2, .proceed), (2, .proceed), (2, .proceed), (2, .proceed), (0, .proceed),
    (0, .proceed), (0, .proceed), (0, .proceed), (0, .proceed), (0, .proceed)]

theorem updates_linear_contention : ∃ s,
    exec (step numbers) (start numbers true 0 ⟨"a", none, "", 1, []⟩ contending) contention =
        some s ∧ s.memory.pointer = 3 ∧
      (s.memory.applied.map Prod.fst).Perm s.memory.requested := by
  obtain ⟨s, hrun, hpointer, hroutines⟩ : ∃ s,
      exec (step numbers) (start numbers true 0 ⟨"a", none, "", 1, []⟩ contending)
        contention = some s ∧ s.memory.pointer = 3 ∧ s.routines = [.done, .done, .done] :=
    ⟨_, rfl, rfl, rfl⟩
  refine ⟨s, hrun, hpointer, (updates_linear hrun).2.2 fun p hp => ?_⟩
  simpa [hroutines] using hp

theorem coordinate_advertised_contention : ∃ s,
    exec (step numbers) (start numbers true 0 ⟨"a", none, "", 1, []⟩ contending) contention =
        some s ∧
      Along (step numbers) InTurn (start numbers true 0 ⟨"a", none, "", 1, []⟩ contending)
        contention ∧
      s.memory.coordinate = 20 ∧
      s.memory.nodeMeta.vivaldiCoord = some s.memory.coordinate ∧
      s.memory.advertised = numbers.answer s.memory.nodeMeta := by
  obtain ⟨s, hrun, hcoordinate, hroutines⟩ : ∃ s,
      exec (step numbers) (start numbers true 0 ⟨"a", none, "", 1, []⟩ contending)
        contention = some s ∧ s.memory.coordinate = 20 ∧
        s.routines = [.done, .done, .done] :=
    ⟨_, rfl, rfl, rfl⟩
  have hcalls : ∀ call ∈ contending, call.point.Keeps := by
    simp [contending, MetaCall.point, MetaPoint.Keeps, movePort]
  have hturns : Along (step numbers) InTurn
      (start numbers true 0 ⟨"a", none, "", 1, []⟩ contending) contention := by decide
  obtain ⟨hfresh, -, hgiven⟩ := coordinate_advertised hcalls hrun fun p hp => by
    simpa [hroutines] using hp
  exact ⟨s, hrun, hturns, hcoordinate, hfresh, hgiven hturns⟩

/-- Two answers cross on their way, and memberlist is left with the older one. -/
example : ((exec (step numbers)
    (start numbers true 0 ⟨"a", none, "", 1, []⟩ [.notifyPingComplete [1], .notifyPingComplete [2]])
    [(0, .proceed), (0, .moved 10), (0, .proceed), (0, .proceed), (0, .proceed), (0, .proceed),
      (1, .proceed), (1, .moved 20), (1, .proceed), (1, .proceed), (1, .proceed), (1, .proceed),
      (1, .proceed), (0, .proceed)]).map fun s =>
        (s.memory.nodeMeta.vivaldiCoord, s.memory.advertised)) = some (some 20, some [10]) := rfl

end MetaThreads

end GossipMesh.Membership
