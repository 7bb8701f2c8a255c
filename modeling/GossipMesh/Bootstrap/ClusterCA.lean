import Mathlib.Logic.Function.Iterate
import GossipMesh.Foundation.Transition
import GossipMesh.Objstore.MemoryStore

/-!
# The cluster CA

`getOrCreateCA` keeps the certificate and the key of the cluster CA in two
objects and creates them with two conditional puts, certificate first.  A call
is modeled by the operation it performs next, so that the operations of any
number of calls interleave freely; a retry starts over at the first `Get`.

Only the call whose certificate was stored goes on to store a key.  That makes
all calls agree, and it also leaves nobody to complete the pair when that call
stops in between.
-/

namespace GossipMesh.Bootstrap

open GossipMesh.Foundation GossipMesh.Objstore

def caKeyPath : String := "ca/key.pem"

def caCertPath : String := "ca/cert.pem"

structure CA where
  cert : Bytes
  key : Bytes
  deriving DecidableEq

inductive Call where
  | getCert
  | getKey (cert : Bytes)
  | generate
  | putCert (ca : CA)
  | putKey (ca : CA)
  | returned (ca : CA)
  | failed
  deriving DecidableEq

inductive Fault where
  | none
  | lost
  -- an error is returned, though the operation took effect
  | applied
  deriving DecidableEq

def getOp (store : MemoryObjectStore) (key : String) (found : Bytes → Call) :
    Fault → Call × MemoryObjectStore
  | .none =>
      match store.get key with
      | .ok obj => (found obj.data, store)
      | .error .notFound => (.generate, store)
      | .error .preconditionFailed => (.failed, store)
  | .lost | .applied => (.failed, store)

def putOp (store : MemoryObjectStore) (key : String) (data : Bytes)
    (stored : Call) : Fault → Call × MemoryObjectStore
  | .none =>
      match store.put key data ifNoneMatch with
      | (.ok _, store) => (stored, store)
      | (.error .preconditionFailed, store) => (.getCert, store)
      | (.error .notFound, store) => (.failed, store)
  | .lost => (.failed, store)
  | .applied => (.failed, (store.put key data ifNoneMatch).2)

def Call.storeOp (store : MemoryObjectStore) (fault : Fault) :
    Call → Option (Call × MemoryObjectStore)
  | .getCert => some (getOp store caCertPath .getKey fault)
  | .getKey cert =>
      some (getOp store caKeyPath (fun key => .returned ⟨cert, key⟩) fault)
  | .putCert ca => some (putOp store caCertPath ca.cert (.putKey ca) fault)
  | .putKey ca => some (putOp store caKeyPath ca.key (.returned ca) fault)
  | .generate | .returned _ | .failed => none

/-! ## Any number of concurrent calls -/

structure System (ι : Type) where
  store : MemoryObjectStore
  calls : ι → Call
  -- the results of all `GenerateCA` calls so far
  generated : List CA

inductive Label (ι : Type) where
  | storeOp (i : ι) (fault : Fault)
  | generate (i : ι) (result : Option CA)
  | stop (i : ι)
  | otherPut (key : String) (data : Bytes) (o : PutOptions)
  | otherDelete (key : String)

namespace System

variable {ι : Type} [DecidableEq ι]

def initial : System ι := ⟨.empty, fun _ => .getCert, []⟩

def setCall (s : System ι) (i : ι) (c : Call) : System ι :=
  { s with calls := Function.update s.calls i c }

def step (s : System ι) : Label ι → Option (System ι)
  | .storeOp i fault =>
      ((s.calls i).storeOp s.store fault).map fun next =>
        { s.setCall i next.1 with store := next.2 }
  | .generate i result =>
      if s.calls i = .generate then
        match result with
        | none => some (s.setCall i .failed)
        | some ca =>
            some { s.setCall i (.putCert ca) with generated := s.generated ++ [ca] }
      else none
  | .stop i => some (s.setCall i .failed)
  | .otherPut key data o =>
      if key ≠ caCertPath ∧ key ≠ caKeyPath then
        some { s with store := (s.store.put key data o).2 }
      else none
  | .otherDelete key =>
      if key ≠ caCertPath ∧ key ≠ caKeyPath then
        some { s with store := s.store.delete key }
      else none

end System

/-! ## What the operations do, by the contents of the store -/

theorem getOp_cases (store : MemoryObjectStore) (key : String)
    (found : Bytes → Call) (fault : Fault) :
    getOp store key found fault = (.failed, store) ∨
    (∃ data, store.contents key = some data ∧
      getOp store key found fault = (found data, store)) ∨
    (store.contents key = none ∧
      getOp store key found fault = (.generate, store)) := by
  cases fault with
  | lost => exact .inl rfl
  | applied => exact .inl rfl
  | none =>
      cases hcontents : store.contents key with
      | none =>
          simp [getOp, MemoryObjectStore.get_of_absent hcontents]
      | some data =>
          obtain ⟨etag, hget⟩ := MemoryObjectStore.get_of_contents hcontents
          simp [getOp, hget]

theorem putOp_cases (store : MemoryObjectStore) (key : String) (data : Bytes)
    (stored : Call) (fault : Fault) :
    putOp store key data stored fault = (.failed, store) ∨
    ((store.contents key).isSome ∧
      putOp store key data stored fault = (.getCert, store)) ∨
    (store.contents key = none ∧
      (putOp store key data stored fault = (stored, store.write key data) ∨
        putOp store key data stored fault = (.failed, store.write key data))) := by
  cases hcontents : store.contents key with
  | none =>
      have hput := MemoryObjectStore.put_ifNoneMatch_of_absent data hcontents
      cases fault <;> simp [putOp, hput]
  | some old =>
      have hput := MemoryObjectStore.put_ifNoneMatch_of_contents data hcontents
      cases fault <;> simp [putOp, hput]

theorem contents_put_ne (store : MemoryObjectStore) {key other : String}
    (data : Bytes) (o : PutOptions) (h : other ≠ key) :
    (store.put key data o).2.contents other = store.contents other := by
  have hwrite := store.contents_write key other data
  rw [if_neg h] at hwrite
  unfold MemoryObjectStore.put
  dsimp only
  split
  · rfl
  · split
    · rfl
    · split
      · rfl
      · exact hwrite

/-! ## Agreement -/

def Call.Early : Call → Prop
  | .getKey _ | .putKey _ | .returned _ => False
  | .getCert | .generate | .putCert _ | .failed => True

def Call.Agrees (ca : CA) : Call → Prop
  | .getKey cert => cert = ca.cert
  | .putKey ca' | .returned ca' => ca' = ca
  | .getCert | .generate | .putCert _ | .failed => True

theorem Call.Early.agrees {c : Call} (h : c.Early) (ca : CA) : c.Agrees ca := by
  cases c <;> first | exact trivial | exact h.elim

namespace System

variable {ι : Type} [DecidableEq ι] {s t : System ι}

structure Unclaimed (s : System ι) : Prop where
  cert : s.store.contents caCertPath = none
  key : s.store.contents caKeyPath = none
  calls : ∀ i, (s.calls i).Early

structure Claimed (ca : CA) (s : System ι) : Prop where
  origin : ca ∈ s.generated
  cert : s.store.contents caCertPath = some ca.cert
  key : ∀ key, s.store.contents caKeyPath = some key → key = ca.key
  calls : ∀ i, (s.calls i).Agrees ca

structure Sound (s : System ι) : Prop where
  puts : ∀ i ca, s.calls i = .putCert ca → ca ∈ s.generated
  claim : s.Unclaimed ∨ ∃ ca, s.Claimed ca

theorem certPath_ne_keyPath : caCertPath ≠ caKeyPath := by decide

theorem Sound.puts_update (h : s.Sound) {i : ι} {c : Call}
    (hput : ∀ ca, c = .putCert ca → ca ∈ s.generated) :
    ∀ j ca, Function.update s.calls i c j = .putCert ca → ca ∈ s.generated :=
  forall_update (P := fun _ c => ∀ ca, c = Call.putCert ca → ca ∈ s.generated)
    h.puts hput

theorem Sound.setCall (h : s.Sound) (i : ι) {c : Call}
    (hput : ∀ ca, c = .putCert ca → ca ∈ s.generated)
    (hearly : s.Unclaimed → c.Early) (hagrees : ∀ ca, s.Claimed ca → c.Agrees ca) :
    (s.setCall i c).Sound where
  puts := h.puts_update hput
  claim := by
    rcases h.claim with hun | ⟨ca, hcl⟩
    · exact .inl ⟨hun.cert, hun.key, forall_update hun.calls (hearly hun)⟩
    · exact .inr ⟨ca, hcl.origin, hcl.cert, hcl.key,
        forall_update hcl.calls (hagrees ca hcl)⟩

theorem Sound.storeCert (h : s.Sound) {i : ι} {ca : CA} {c : Call}
    (hcall : s.calls i = .putCert ca)
    (hempty : s.store.contents caCertPath = none)
    (hc : c = .putKey ca ∨ c = .failed) :
    Sound { s.setCall i c with store := s.store.write caCertPath ca.cert } where
  puts := h.puts_update (by rcases hc with rfl | rfl <;> simp)
  claim := by
    rcases h.claim with hun | ⟨ca', hcl⟩
    · refine .inr ⟨ca, h.puts i ca hcall, ?_, ?_, ?_⟩
      · exact (s.store.contents_write ..).trans (if_pos rfl)
      · intro key hkey
        have hwrite := s.store.contents_write caCertPath caKeyPath ca.cert
        rw [if_neg (Ne.symm certPath_ne_keyPath), hun.key] at hwrite
        cases hkey.symm.trans hwrite
      · refine forall_update (fun j => (hun.calls j).agrees ca) ?_
        rcases hc with rfl | rfl
        · exact rfl
        · exact trivial
    · cases hempty.symm.trans hcl.cert

theorem Sound.storeKey (h : s.Sound) {i : ι} {ca : CA} {c : Call}
    (hcall : s.calls i = .putKey ca) (hc : c = .returned ca ∨ c = .failed) :
    Sound { s.setCall i c with store := s.store.write caKeyPath ca.key } where
  puts := h.puts_update (by rcases hc with rfl | rfl <;> simp)
  claim := by
    rcases h.claim with hun | ⟨ca', hcl⟩
    · have hearly := hun.calls i
      rw [hcall] at hearly
      exact hearly.elim
    · -- only the call whose certificate is stored gets here
      have howner : ca = ca' := by
        have hagrees := hcl.calls i
        rwa [hcall] at hagrees
      subst howner
      refine .inr ⟨ca, hcl.origin, ?_, ?_, ?_⟩
      · exact ((s.store.contents_write ..).trans
          (if_neg certPath_ne_keyPath)).trans hcl.cert
      · intro key hkey
        have hwrite := s.store.contents_write caKeyPath caKeyPath ca.key
        rw [if_pos rfl] at hwrite
        cases hkey.symm.trans hwrite
        rfl
      · refine forall_update hcl.calls ?_
        rcases hc with rfl | rfl
        · exact rfl
        · exact trivial

omit [DecidableEq ι] in
theorem Sound.otherKeys (h : s.Sound) {store : MemoryObjectStore}
    (hcert : store.contents caCertPath = s.store.contents caCertPath)
    (hkey : store.contents caKeyPath = s.store.contents caKeyPath) :
    Sound { s with store := store } where
  puts := h.puts
  claim := by
    rcases h.claim with hun | ⟨ca, hcl⟩
    · exact .inl ⟨hcert.trans hun.cert, hkey.trans hun.key, hun.calls⟩
    · exact .inr ⟨ca, hcl.origin, hcert.trans hcl.cert, hkey ▸ hcl.key, hcl.calls⟩

private theorem Sound.generate (h : s.Sound) (i : ι) (ca : CA) :
    Sound { s.setCall i (.putCert ca) with generated := s.generated ++ [ca] } where
  puts := by
    refine forall_update
      (P := fun _ c => ∀ ca', c = Call.putCert ca' → ca' ∈ s.generated ++ [ca]) ?_ ?_
    · exact fun j ca' hj => List.mem_append_left _ (h.puts j ca' hj)
    · rintro ca' ⟨⟩
      simp
  claim := by
    rcases h.claim with hun | ⟨ca', hcl⟩
    · exact .inl ⟨hun.cert, hun.key, forall_update hun.calls trivial⟩
    · exact .inr ⟨ca', List.mem_append_left _ hcl.origin, hcl.cert, hcl.key,
        forall_update hcl.calls trivial⟩

private theorem Sound.storeOp (h : s.Sound) {i : ι} {fault : Fault} {c : Call}
    {store : MemoryObjectStore}
    (hop : (s.calls i).storeOp s.store fault = some (c, store)) :
    Sound { s.setCall i c with store := store } := by
  cases hcall : s.calls i with
  | generate | returned ca | failed => simp [hcall, Call.storeOp] at hop
  | getCert =>
      rw [hcall, Call.storeOp, Option.some.injEq] at hop
      rcases getOp_cases s.store caCertPath .getKey fault with
        heq | ⟨cert, hcert, heq⟩ | ⟨hcert, heq⟩ <;>
        obtain ⟨rfl, rfl⟩ := Prod.mk.inj (heq.symm.trans hop)
      · exact h.setCall i (by simp) (fun _ => trivial) fun _ _ => trivial
      · refine h.setCall i (by simp) (fun hun => ?_) fun ca hcl => ?_
        · cases hun.cert.symm.trans hcert
        · exact Option.some.inj (hcert.symm.trans hcl.cert)
      · exact h.setCall i (by simp) (fun _ => trivial) fun _ _ => trivial
  | getKey cert =>
      rw [hcall, Call.storeOp, Option.some.injEq] at hop
      rcases getOp_cases s.store caKeyPath (fun key => .returned ⟨cert, key⟩)
          fault with heq | ⟨key, hkey, heq⟩ | ⟨hkey, heq⟩ <;>
        obtain ⟨rfl, rfl⟩ := Prod.mk.inj (heq.symm.trans hop)
      · exact h.setCall i (by simp) (fun _ => trivial) fun _ _ => trivial
      · refine h.setCall i (by simp) (fun hun => ?_) fun ca hcl => ?_
        · cases hun.key.symm.trans hkey
        · have hcert : cert = ca.cert := by
            have hagrees := hcl.calls i
            rwa [hcall] at hagrees
          change CA.mk cert key = ca
          rw [hcert, hcl.key key hkey]
      · exact h.setCall i (by simp) (fun _ => trivial) fun _ _ => trivial
  | putCert ca =>
      rw [hcall, Call.storeOp, Option.some.injEq] at hop
      rcases putOp_cases s.store caCertPath ca.cert (.putKey ca) fault with
        heq | ⟨-, heq⟩ | ⟨hempty, heq | heq⟩ <;>
        obtain ⟨rfl, rfl⟩ := Prod.mk.inj (heq.symm.trans hop)
      · exact h.setCall i (by simp) (fun _ => trivial) fun _ _ => trivial
      · exact h.setCall i (by simp) (fun _ => trivial) fun _ _ => trivial
      · exact h.storeCert hcall hempty (.inl rfl)
      · exact h.storeCert hcall hempty (.inr rfl)
  | putKey ca =>
      rw [hcall, Call.storeOp, Option.some.injEq] at hop
      rcases putOp_cases s.store caKeyPath ca.key (.returned ca) fault with
        heq | ⟨-, heq⟩ | ⟨-, heq | heq⟩ <;>
        obtain ⟨rfl, rfl⟩ := Prod.mk.inj (heq.symm.trans hop)
      · exact h.setCall i (by simp) (fun _ => trivial) fun _ _ => trivial
      · exact h.setCall i (by simp) (fun _ => trivial) fun _ _ => trivial
      · exact h.storeKey hcall (.inl rfl)
      · exact h.storeKey hcall (.inr rfl)

private theorem Sound.step (h : s.Sound) {l : Label ι} (hstep : s.step l = some t) :
    t.Sound := by
  cases l with
  | storeOp i fault =>
      obtain ⟨⟨c, store⟩, hop, rfl⟩ := Option.map_eq_some_iff.mp hstep
      exact h.storeOp hop
  | generate i result =>
      simp only [System.step] at hstep
      split at hstep
      · cases result with
        | none =>
            cases hstep
            exact h.setCall i (by simp) (fun _ => trivial) fun _ _ => trivial
        | some ca =>
            cases hstep
            exact h.generate i ca
      · cases hstep
  | stop i =>
      cases hstep
      exact h.setCall i (by simp) (fun _ => trivial) fun _ _ => trivial
  | otherPut key data o =>
      simp only [System.step] at hstep
      split at hstep
      · next hne =>
          cases hstep
          exact h.otherKeys (contents_put_ne _ _ _ (Ne.symm hne.1))
            (contents_put_ne _ _ _ (Ne.symm hne.2))
      · cases hstep
  | otherDelete key =>
      simp only [System.step] at hstep
      split at hstep
      · next hne =>
          cases hstep
          refine h.otherKeys ?_ ?_
          · exact (s.store.contents_delete ..).trans (if_neg (Ne.symm hne.1))
          · exact (s.store.contents_delete ..).trans (if_neg (Ne.symm hne.2))
      · cases hstep

omit [DecidableEq ι] in
private theorem sound_initial : (initial : System ι).Sound where
  puts i ca h := by cases h
  claim := .inl ⟨rfl, rfl, fun _ => trivial⟩

/--
In every run from an empty store, with faults and stops anywhere, all calls
that return have returned the outcome of one and the same `GenerateCA` call.
-/
theorem agreement_run {acts : List (Label ι)}
    (hrun : exec step initial acts = some s) {i : ι} {ca : CA}
    (hreturned : s.calls i = .returned ca) :
    ∃ n : Nat, s.generated[n]? = some ca ∧
      ∀ j ca', s.calls j = .returned ca' → s.generated[n]? = some ca' := by
  have hsound : s.Sound :=
    exec_invariant Sound (fun _ _ _ h hstep => h.step hstep) sound_initial hrun
  rcases hsound.claim with hun | ⟨owner, hcl⟩
  · have hearly := hun.calls i
    rw [hreturned] at hearly
    exact hearly.elim
  · have howner : ∀ j ca', s.calls j = .returned ca' → ca' = owner := by
      intro j ca' hj
      have hagrees := hcl.calls j
      rwa [hj] at hagrees
    obtain ⟨n, hn, hget⟩ := List.getElem_of_mem hcl.origin
    have hat : s.generated[n]? = some owner := by
      rw [List.getElem?_eq_getElem hn, hget]
    refine ⟨n, (howner i ca hreturned) ▸ hat, fun j ca' hj => ?_⟩
    rw [howner j ca' hj]
    exact hat

def raceTrace : List (Label Bool) :=
  [.storeOp false .none, .storeOp true .none,
   .generate false (some ⟨[1], [2]⟩), .generate true (some ⟨[3], [4]⟩),
   .storeOp false .none, .storeOp true .none,
   .storeOp true .none, .storeOp true .none, .generate true (some ⟨[5], [6]⟩),
   .storeOp false .none, .storeOp true .none, .storeOp true .none,
   .storeOp true .none]

theorem agreement_run_raceTrace :
    ∃ s : System Bool, exec step initial raceTrace = some s ∧
      s.calls true = .returned ⟨[1], [2]⟩ ∧
      ∃ n : Nat, s.generated[n]? = some ⟨[1], [2]⟩ ∧
        ∀ j ca', s.calls j = .returned ca' → s.generated[n]? = some ca' := by
  have hsome : (exec step (initial : System Bool) raceTrace).isSome := by decide
  obtain ⟨s, hrun⟩ := Option.isSome_iff_exists.mp hsome
  have hreturned : ∀ t, exec step (initial : System Bool) raceTrace = some t →
      t.calls true = .returned ⟨[1], [2]⟩ := by decide
  exact ⟨s, hrun, hreturned s hrun, agreement_run hrun (hreturned s hrun)⟩

end System

/-! ## A call that runs alone -/

/-- The state of a call that runs alone, with the `GenerateCA` calls it made. -/
structure Alone where
  call : Call
  store : MemoryObjectStore
  used : Nat

def Alone.step (gen : Nat → CA) (s : Alone) : Alone :=
  if s.call = .generate then
    { s with call := .putCert (gen s.used), used := s.used + 1 }
  else
    match s.call.storeOp s.store .none with
    | some (call, store) => { s with call := call, store := store }
    | none => s

def Returns (gen : Nat → CA) (store : MemoryObjectStore) : Prop :=
  ∃ steps ca, ((Alone.step gen)^[steps] ⟨.getCert, store, 0⟩).call = .returned ca

def HalfStored (store : MemoryObjectStore) : Prop :=
  (store.contents caCertPath).isSome ∧ store.contents caKeyPath = none

instance (store : MemoryObjectStore) : Decidable (HalfStored store) :=
  inferInstanceAs (Decidable (_ ∧ _))

section Steps

variable {gen : Nat → CA} {store : MemoryObjectStore} {n : Nat}

theorem step_getCert {cert : Bytes} (h : store.contents caCertPath = some cert) :
    Alone.step gen ⟨.getCert, store, n⟩ = ⟨.getKey cert, store, n⟩ := by
  obtain ⟨etag, hget⟩ := MemoryObjectStore.get_of_contents h
  simp [Alone.step, Call.storeOp, getOp, hget]

theorem step_getCert_absent (h : store.contents caCertPath = none) :
    Alone.step gen ⟨.getCert, store, n⟩ = ⟨.generate, store, n⟩ := by
  simp [Alone.step, Call.storeOp, getOp, MemoryObjectStore.get_of_absent h]

theorem step_getKey {cert key : Bytes} (h : store.contents caKeyPath = some key) :
    Alone.step gen ⟨.getKey cert, store, n⟩ =
      ⟨.returned ⟨cert, key⟩, store, n⟩ := by
  obtain ⟨etag, hget⟩ := MemoryObjectStore.get_of_contents h
  simp [Alone.step, Call.storeOp, getOp, hget]

theorem step_getKey_absent {cert : Bytes} (h : store.contents caKeyPath = none) :
    Alone.step gen ⟨.getKey cert, store, n⟩ = ⟨.generate, store, n⟩ := by
  simp [Alone.step, Call.storeOp, getOp, MemoryObjectStore.get_of_absent h]

theorem step_generate :
    Alone.step gen ⟨.generate, store, n⟩ = ⟨.putCert (gen n), store, n + 1⟩ := by
  simp [Alone.step]

theorem step_putCert {ca : CA} (h : store.contents caCertPath = none) :
    Alone.step gen ⟨.putCert ca, store, n⟩ =
      ⟨.putKey ca, store.write caCertPath ca.cert, n⟩ := by
  simp [Alone.step, Call.storeOp, putOp,
    MemoryObjectStore.put_ifNoneMatch_of_absent _ h]

theorem step_putCert_present {ca : CA} {cert : Bytes}
    (h : store.contents caCertPath = some cert) :
    Alone.step gen ⟨.putCert ca, store, n⟩ = ⟨.getCert, store, n⟩ := by
  simp [Alone.step, Call.storeOp, putOp,
    MemoryObjectStore.put_ifNoneMatch_of_contents _ h]

theorem step_putKey {ca : CA} (h : store.contents caKeyPath = none) :
    Alone.step gen ⟨.putKey ca, store, n⟩ =
      ⟨.returned ca, store.write caKeyPath ca.key, n⟩ := by
  simp [Alone.step, Call.storeOp, putOp,
    MemoryObjectStore.put_ifNoneMatch_of_absent _ h]

theorem step_putKey_present {ca : CA} {key : Bytes}
    (h : store.contents caKeyPath = some key) :
    Alone.step gen ⟨.putKey ca, store, n⟩ = ⟨.getCert, store, n⟩ := by
  simp [Alone.step, Call.storeOp, putOp,
    MemoryObjectStore.put_ifNoneMatch_of_contents _ h]

private theorem halfStored_loops (h : HalfStored store) (steps : Nat) :
    let s := (Alone.step gen)^[steps] ⟨.getCert, store, 0⟩
    s.store = store ∧
      (s.call = .getCert ∨ (∃ cert, s.call = .getKey cert) ∨
        s.call = .generate ∨ ∃ ca, s.call = .putCert ca) := by
  obtain ⟨cert, hcert⟩ := Option.isSome_iff_exists.mp h.1
  induction steps with
  | zero => exact ⟨rfl, .inl rfl⟩
  | succ steps ih =>
      rw [Function.iterate_succ_apply']
      generalize (Alone.step gen)^[steps] ⟨.getCert, store, 0⟩ = s at ih
      obtain ⟨call, st, used⟩ := s
      obtain ⟨rfl, rfl | ⟨c, rfl⟩ | rfl | ⟨ca, rfl⟩⟩ := ih
      · simp [step_getCert hcert]
      · simp [step_getKey_absent h.2]
      · simp [step_generate]
      · simp [step_putCert_present hcert]

theorem halfStored_not_returned (h : HalfStored store) (steps : Nat) (ca : CA) :
    ((Alone.step gen)^[steps] ⟨.getCert, store, 0⟩).call ≠ .returned ca := by
  intro hreturned
  obtain ⟨-, hloop⟩ := halfStored_loops h steps
  rw [hreturned] at hloop
  rcases hloop with h | ⟨c, h⟩ | h | ⟨c, h⟩ <;> cases h

end Steps

/--
A call that runs alone and meets no storage error returns, on any store but
one that holds the certificate without the key.
-/
theorem returns_iff_not_halfStored (gen : Nat → CA)
    (store : MemoryObjectStore) : Returns gen store ↔ ¬ HalfStored store := by
  constructor
  · rintro ⟨steps, ca, hreturned⟩ hhalf
    exact halfStored_not_returned hhalf steps ca hreturned
  · intro hwhole
    cases hcert : store.contents caCertPath with
    | some cert =>
        cases hkey : store.contents caKeyPath with
        | some key =>
            refine ⟨2, ⟨cert, key⟩, ?_⟩
            simp only [Function.iterate_succ_apply', Function.iterate_zero_apply]
            rw [step_getCert hcert, step_getKey hkey]
        | none => exact absurd ⟨by simp [hcert], hkey⟩ hwhole
    | none =>
        have hafter : ∀ cert, (store.write caCertPath cert).contents caCertPath =
            some cert := fun cert => (store.contents_write ..).trans (if_pos rfl)
        have hother : ∀ cert, (store.write caCertPath cert).contents caKeyPath =
            store.contents caKeyPath := fun cert =>
          (store.contents_write ..).trans
            (if_neg (Ne.symm System.certPath_ne_keyPath))
        cases hkey : store.contents caKeyPath with
        | none =>
            refine ⟨4, gen 0, ?_⟩
            simp only [Function.iterate_succ_apply', Function.iterate_zero_apply]
            rw [step_getCert_absent hcert, step_generate, step_putCert hcert,
              step_putKey ((hother _).trans hkey)]
        | some key =>
            -- the key put fails, and the retry pairs the new certificate with it
            refine ⟨6, ⟨(gen 0).cert, key⟩, ?_⟩
            simp only [Function.iterate_succ_apply', Function.iterate_zero_apply]
            rw [step_getCert_absent hcert, step_generate, step_putCert hcert,
              step_putKey_present ((hother _).trans hkey),
              step_getCert (hafter _), step_getKey ((hother _).trans hkey)]

def stopTrace : List (Label Unit) :=
  [.storeOp () .none, .generate () (some ⟨[1], [2]⟩), .storeOp () .none, .stop ()]

/-- No later call returns from the store it leaves behind. -/
theorem stopTrace_wedges :
    ∃ s : System Unit, exec System.step .initial stopTrace = some s ∧
      ∀ steps ca, ((Alone.step fun _ => ⟨[3], [4]⟩)^[steps]
        ⟨.getCert, s.store, 0⟩).call ≠ .returned ca := by
  have hsome : (exec System.step (.initial : System Unit) stopTrace).isSome := by
    decide
  obtain ⟨s, hrun⟩ := Option.isSome_iff_exists.mp hsome
  have hhalf : ∀ t, exec System.step (.initial : System Unit) stopTrace = some t →
      HalfStored t.store := by decide
  exact ⟨s, hrun, halfStored_not_returned (hhalf s hrun)⟩

end GossipMesh.Bootstrap
