import GossipMesh.Objstore.MemoryStore

/-!
# Reading all objects under a key

`DiscoverPeers` and `ReadSignals` list the keys that begin with a string and
then get the objects one by one, skipping those that are gone by then.  Other
clients change the store in between, so a scan is cut into its operations.
What is in the store from the listing on until it is read is not missed.
-/

namespace GossipMesh.Objstore

open GossipMesh.Foundation

structure Scan (α : Type) where
  todo : List String
  found : α
  deriving DecidableEq

namespace Scan

variable {α : Type}

def start (store : MemoryObjectStore) (under : String) (none : α) : Scan α :=
  ⟨store.list under, none⟩

/-- One turn of the loop; `use` is what it does with the data of an object. -/
def next (use : α → Bytes → α) (store : MemoryObjectStore) (scan : Scan α) : Option (Scan α) :=
  match scan.todo with
  | [] => none
  | key :: todo =>
      match store.get key with
      | .ok obj => some ⟨todo, use scan.found obj.data⟩
      | .error .notFound => some ⟨todo, scan.found⟩
      | .error .preconditionFailed => none

theorem next_cases {use : α → Bytes → α} {store : MemoryObjectStore} {scan scan' : Scan α}
    (h : scan.next use store = some scan') :
    ∃ key todo, scan.todo = key :: todo ∧ scan'.todo = todo ∧
      scan'.found = ((store.contents key).map (use scan.found)).getD scan.found := by
  unfold next at h
  split at h
  · cases h
  · next key todo htodo =>
      refine ⟨key, todo, htodo, ?_⟩
      cases hcontents : store.contents key with
      | none =>
          rw [MemoryObjectStore.get_of_absent hcontents] at h
          cases h
          exact ⟨rfl, rfl⟩
      | some data =>
          obtain ⟨etag, hget⟩ := MemoryObjectStore.get_of_contents hcontents
          rw [hget] at h
          cases h
          exact ⟨rfl, rfl⟩

theorem next_of_cons (use : α → Bytes → α) (store : MemoryObjectStore) (key : String)
    (todo : List String) (found : α) :
    ∃ found', next use store ⟨key :: todo, found⟩ = some ⟨todo, found'⟩ := by
  cases hcontents : store.contents key with
  | none =>
      exact ⟨found, by simp [next, MemoryObjectStore.get_of_absent hcontents]⟩
  | some data =>
      obtain ⟨etag, hget⟩ := MemoryObjectStore.get_of_contents hcontents
      exact ⟨use found data, by simp [next, hget]⟩

def finish (use : α → Bytes → α) (store : MemoryObjectStore) : List String → α → Option α
  | [], found => some found
  | key :: todo, found =>
      (next use store ⟨key :: todo, found⟩).bind fun scan => finish use store todo scan.found

theorem finish_cons (use : α → Bytes → α) (store : MemoryObjectStore) (key : String)
    (todo : List String) (found : α) :
    finish use store (key :: todo) found =
      finish use store todo (((store.contents key).map (use found)).getD found) := by
  obtain ⟨found', hnext⟩ := next_of_cons use store key todo found
  obtain ⟨_, _, htodo, -, hfound⟩ := next_cases hnext
  cases htodo
  rw [finish, hnext, Option.bind_some, hfound]

theorem finish_congr (use : α → Bytes → α) {store store' : MemoryObjectStore}
    {todo : List String} (h : ∀ key ∈ todo, store.contents key = store'.contents key) (found : α) :
    finish use store todo found = finish use store' todo found := by
  induction todo generalizing found with
  | nil => rfl
  | cons key todo ih =>
      rw [finish_cons, finish_cons, h key (by simp)]
      exact ih (fun other hother => h other (by simp [hother])) _

/-- The object at the key is still to be read, or what was found tells of it. -/
def Covers (key : String) (P : α → Prop) (scan : Scan α) : Prop :=
  key ∈ scan.todo ∨ P scan.found

theorem covers_start {store : MemoryObjectStore} {under key : String} {P : α → Prop}
    (hkey : under.toList <+: key.toList) (hthere : (store.contents key).isSome) (none : α) :
    Covers key P (start store under none) :=
  .inl (MemoryObjectStore.mem_list.mpr ⟨hthere, hkey⟩)

theorem Covers.next {use : α → Bytes → α} {store : MemoryObjectStore} {scan scan' : Scan α}
    {key : String} {P : α → Prop} (h : Covers key P scan)
    (hkeep : ∀ found data, P found → P (use found data))
    (hthere : ∃ data, store.contents key = some data ∧ ∀ found, P (use found data))
    (hnext : scan.next use store = some scan') : Covers key P scan' := by
  obtain ⟨first, todo, htodo, htodo', hfound⟩ := next_cases hnext
  rcases h with hmem | hP
  · rw [htodo] at hmem
    rcases List.mem_cons.mp hmem with rfl | hmem
    · obtain ⟨data, hdata, huse⟩ := hthere
      right
      rw [hfound, hdata]
      exact huse scan.found
    · left
      rwa [htodo']
  · right
    rw [hfound]
    cases store.contents first with
    | none => exact hP
    | some data => exact hkeep _ _ hP

end Scan

end GossipMesh.Objstore
