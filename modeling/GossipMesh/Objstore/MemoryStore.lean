import Mathlib.Data.Finmap
import Mathlib.Data.List.Sort
import Mathlib.Data.String.Basic
import GossipMesh.Foundation.Wire

/-!
# The in-memory object store

`MemoryObjectStore` serializes its operations with one lock, so each operation
is a function on the whole store.  Modification times are left out; nothing
reads them.
-/

namespace GossipMesh.Objstore

open GossipMesh.Foundation

inductive StoreError where
  | notFound
  | preconditionFailed
  deriving DecidableEq

structure MemObject where
  data : Bytes
  etag : String
  deriving DecidableEq

structure PutOptions where
  ifNoneMatch : Bool
  ifMatch : String

def ifNoneMatch : PutOptions := ⟨true, ""⟩

def noOptions : PutOptions := ⟨false, ""⟩

def sortStrings (keys : Finset String) : List String :=
  -- `sort.Strings`; `Finset.sort` does not evaluate
  Quot.liftOn keys.val (List.insertionSort (· ≤ ·)) fun xs ys h =>
    have hperm := (List.perm_insertionSort _ xs).trans
      (h.trans (List.perm_insertionSort _ ys).symm)
    hperm.eq_of_pairwise' (List.pairwise_insertionSort _ xs) (List.pairwise_insertionSort _ ys)

structure MemoryObjectStore where
  objects : Finmap (fun _ : String => MemObject)
  version : UInt64

namespace MemoryObjectStore

def empty : MemoryObjectStore := ⟨∅, 0⟩

def nextETag (s : MemoryObjectStore) : String :=
  "v" ++ toString s.version.toNat

def write (s : MemoryObjectStore) (key : String) (data : Bytes) :
    MemoryObjectStore :=
  ⟨s.objects.insert key ⟨data, s.nextETag⟩, s.version + 1⟩

def put (s : MemoryObjectStore) (key : String) (data : Bytes) (o : PutOptions) :
    Except StoreError String × MemoryObjectStore :=
  let existing := s.objects.lookup key
  if o.ifNoneMatch ∧ existing.isSome then (.error .preconditionFailed, s)
  else if o.ifMatch ≠ "" ∧ existing.isNone then (.error .notFound, s)
  else if o.ifMatch ≠ "" ∧ existing.map MemObject.etag ≠ some o.ifMatch then
    (.error .preconditionFailed, s)
  else (.ok s.nextETag, s.write key data)

def get (s : MemoryObjectStore) (key : String) : Except StoreError MemObject :=
  match s.objects.lookup key with
  | none => .error .notFound
  | some obj => .ok obj

def delete (s : MemoryObjectStore) (key : String) : MemoryObjectStore :=
  { s with objects := s.objects.erase key }

def list (s : MemoryObjectStore) (start : String) : List String :=
  sortStrings (s.objects.keys.filter fun key => start.toList <+: key.toList)

/-! ## Contents -/

def contents (s : MemoryObjectStore) (key : String) : Option Bytes :=
  (s.objects.lookup key).map MemObject.data

theorem contents_write (s : MemoryObjectStore) (key other : String)
    (data : Bytes) :
    (s.write key data).contents other =
      if other = key then some data else s.contents other := by
  unfold contents write
  by_cases h : other = key
  · subst h
    simp
  · rw [Finmap.lookup_insert_of_ne _ h, if_neg h]

theorem contents_delete (s : MemoryObjectStore) (key other : String) :
    (s.delete key).contents other =
      if other = key then none else s.contents other := by
  unfold contents delete
  by_cases h : other = key
  · subst h
    simp
  · rw [Finmap.lookup_erase_ne h, if_neg h]

theorem get_of_contents {s : MemoryObjectStore} {key : String} {data : Bytes}
    (h : s.contents key = some data) :
    ∃ etag, s.get key = .ok ⟨data, etag⟩ := by
  unfold contents at h
  obtain ⟨obj, hlookup, rfl⟩ := Option.map_eq_some_iff.mp h
  exact ⟨obj.etag, by simp [get, hlookup]⟩

theorem get_of_absent {s : MemoryObjectStore} {key : String}
    (h : s.contents key = none) : s.get key = .error .notFound := by
  unfold contents at h
  simp [get, Option.map_eq_none_iff.mp h]

theorem put_ifNoneMatch_of_absent {s : MemoryObjectStore} {key : String}
    (data : Bytes) (h : s.contents key = none) :
    s.put key data ifNoneMatch = (.ok s.nextETag, s.write key data) := by
  unfold contents at h
  simp [put, ifNoneMatch, Option.map_eq_none_iff.mp h]

theorem put_ifNoneMatch_of_contents {s : MemoryObjectStore} {key : String}
    {old : Bytes} (data : Bytes) (h : s.contents key = some old) :
    s.put key data ifNoneMatch = (.error .preconditionFailed, s) := by
  unfold contents at h
  obtain ⟨obj, hlookup, -⟩ := Option.map_eq_some_iff.mp h
  simp [put, ifNoneMatch, hlookup]

theorem put_noOptions (s : MemoryObjectStore) (key : String) (data : Bytes) :
    s.put key data noOptions = (.ok s.nextETag, s.write key data) := by
  simp [put, noOptions]

theorem mem_sortStrings {keys : Finset String} {key : String} :
    key ∈ sortStrings keys ↔ key ∈ keys := by
  obtain ⟨keys, hnodup⟩ := keys
  induction keys using Quot.inductionOn with
  | h xs => exact (List.perm_insertionSort (· ≤ ·) xs).mem_iff

private theorem nodup_sortStrings (keys : Finset String) : (sortStrings keys).Nodup := by
  obtain ⟨keys, hnodup⟩ := keys
  induction keys using Quot.inductionOn with
  | h xs => exact (List.perm_insertionSort (· ≤ ·) xs).nodup_iff.mpr hnodup

theorem nodup_list (s : MemoryObjectStore) (start : String) : (s.list start).Nodup :=
  nodup_sortStrings _

theorem mem_list {s : MemoryObjectStore} {start key : String} :
    key ∈ s.list start ↔ (s.contents key).isSome ∧ start.toList <+: key.toList := by
  rw [list, mem_sortStrings, Finset.mem_filter, Finmap.mem_keys, contents, Option.isSome_map,
    Finmap.lookup_isSome]

theorem list_congr {s t : MemoryObjectStore} {start : String}
    (h : ∀ key, start.toList <+: key.toList → s.contents key = t.contents key) :
    s.list start = t.list start := by
  unfold list
  congr 1
  ext key
  rw [← mem_sortStrings, ← mem_sortStrings]
  change key ∈ s.list start ↔ key ∈ t.list start
  rw [mem_list, mem_list]
  constructor
  · rintro ⟨hthere, hstart⟩
    exact ⟨h key hstart ▸ hthere, hstart⟩
  · rintro ⟨hthere, hstart⟩
    exact ⟨(h key hstart).symm ▸ hthere, hstart⟩

theorem list_eq_singleton {s : MemoryObjectStore} {start key : String}
    (h : ∀ other, (s.contents other).isSome ∧ start.toList <+: other.toList ↔ other = key) :
    s.list start = [key] := by
  apply List.perm_singleton.mp
  rw [List.perm_ext_iff_of_nodup (s.nodup_list start) (List.nodup_singleton key)]
  intro other
  rw [mem_list, h, List.mem_singleton]

theorem contents_foldl_delete (s : MemoryObjectStore) (keys : List String) (other : String) :
    (keys.foldl delete s).contents other = if other ∈ keys then none else s.contents other := by
  induction keys generalizing s with
  | nil => simp
  | cons key keys ih =>
      rw [List.foldl_cons, ih, contents_delete]
      by_cases hkeys : other ∈ keys
      · simp [hkeys]
      · simp [hkeys]

end MemoryObjectStore

end GossipMesh.Objstore
