import GossipMesh.Objstore.MemoryStore

/-!
# Conditional puts

A client that has read a version of an object writes it back with `IfMatch`.
The version is a number that is never given out twice, so the write succeeds
only if nothing has happened to the key in between, not even a deletion and a
new object with the same data.
-/

namespace GossipMesh.Objstore

open GossipMesh.Foundation

inductive PutOption where
  | ifNoneMatch
  | ifMatch (etag : String)
  deriving DecidableEq

def PutOption.apply (o : PutOptions) : PutOption → PutOptions
  | .ifNoneMatch => { o with ifNoneMatch := true }
  | .ifMatch etag => { o with ifMatch := etag }

def resolvePutOptions (opts : List PutOption) : PutOptions :=
  opts.foldl PutOption.apply noOptions

inductive StoreOp where
  | put (key : String) (data : Bytes) (opts : List PutOption)
  | get (key : String)
  | list (start : String)
  | delete (key : String)
  deriving DecidableEq

def StoreOp.isPut : StoreOp → Bool
  | .put _ _ _ => true
  | .get _ | .list _ | .delete _ => false

inductive Change where
  | put (key etag : String)
  | deleted (key : String)
  deriving DecidableEq

namespace Change

def key : Change → String
  | .put key _ | .deleted key => key

def etag : Change → Option String
  | .put _ etag => some etag
  | .deleted _ => none

end Change

structure StoreRun where
  store : MemoryObjectStore
  log : List Change

namespace StoreRun

def step (r : StoreRun) : StoreOp → StoreRun
  | .put key data opts =>
      match r.store.put key data (resolvePutOptions opts) with
      | (.ok etag, store) => ⟨store, r.log ++ [.put key etag]⟩
      | (.error _, store) => ⟨store, r.log⟩
  | .get _ | .list _ => r
  | .delete key => ⟨r.store.delete key, r.log ++ [.deleted key]⟩

def run (ops : List StoreOp) : StoreRun := ops.foldl step ⟨.empty, []⟩

theorem run_snoc (ops : List StoreOp) (op : StoreOp) :
    run (ops ++ [op]) = (run ops).step op := by
  simp [run]

end StoreRun

/-! ## One operation -/

namespace MemoryObjectStore

def etagAt (s : MemoryObjectStore) (key : String) : Option String :=
  (s.objects.lookup key).map MemObject.etag

def Succeeds (s : MemoryObjectStore) (key : String) (data : Bytes)
    (opts : List PutOption) : Prop :=
  (s.put key data (resolvePutOptions opts)).1.isOk

instance (s : MemoryObjectStore) (key : String) (data : Bytes) (opts : List PutOption) :
    Decidable (s.Succeeds key data opts) :=
  inferInstanceAs (Decidable (_ = true))

theorem etagAt_write (s : MemoryObjectStore) (key other : String) (data : Bytes) :
    (s.write key data).etagAt other = if other = key then some s.nextETag else s.etagAt other := by
  unfold etagAt write
  by_cases h : other = key
  · subst h
    simp
  · rw [Finmap.lookup_insert_of_ne _ h, if_neg h]

theorem etagAt_delete (s : MemoryObjectStore) (key other : String) :
    (s.delete key).etagAt other = if other = key then none else s.etagAt other := by
  unfold etagAt delete
  by_cases h : other = key
  · subst h
    simp
  · rw [Finmap.lookup_erase_ne h, if_neg h]

theorem put_cases (s : MemoryObjectStore) (key : String) (data : Bytes) (o : PutOptions) :
    s.put key data o = (.ok s.nextETag, s.write key data) ∨
      ∃ err, s.put key data o = (.error err, s) := by
  unfold put
  dsimp only
  split
  · exact .inr ⟨_, rfl⟩
  · split
    · exact .inr ⟨_, rfl⟩
    · split
      · exact .inr ⟨_, rfl⟩
      · exact .inl rfl

theorem succeeds_ifMatch_iff (s : MemoryObjectStore) (key : String) (data : Bytes)
    {etag : String} (hetag : etag ≠ "") :
    s.Succeeds key data [.ifMatch etag] ↔ s.etagAt key = some etag := by
  unfold Succeeds put etagAt
  cases hlookup : s.objects.lookup key with
  | none => simp [resolvePutOptions, PutOption.apply, noOptions, hetag, Except.isOk, Except.toBool]
  | some obj =>
      by_cases hobj : obj.etag = etag <;>
        simp [resolvePutOptions, PutOption.apply, noOptions, hetag, hobj, Except.isOk,
          Except.toBool]

theorem succeeds_ifNoneMatch_iff (s : MemoryObjectStore) (key : String) (data : Bytes) :
    s.Succeeds key data [.ifNoneMatch] ↔ s.contents key = none := by
  change ((s.put key data ifNoneMatch).1.isOk = true) ↔ _
  cases hcontents : s.contents key with
  | none =>
      rw [put_ifNoneMatch_of_absent data hcontents]
      exact iff_of_true rfl rfl
  | some old =>
      rw [put_ifNoneMatch_of_contents data hcontents]
      simp [Except.isOk, Except.toBool]

end MemoryObjectStore

/-! ## The ETags of a run -/

def versionETag (version : Nat) : String := "v" ++ toString version

theorem versionETag_injective : Function.Injective versionETag := by
  intro m n h
  have hdigits : Nat.toDigits 10 m = Nat.toDigits 10 n := by
    have htext : m.repr = n.repr := by simpa [versionETag] using h
    rw [Nat.repr_eq_ofList_toDigits, Nat.repr_eq_ofList_toDigits] at htext
    exact String.ofList_injective htext
  rw [← Nat.ofDigitChars_toDigits (b := 10) (n := m) (by decide) (by decide), hdigits,
    Nat.ofDigitChars_toDigits (by decide) (by decide)]

theorem versionETag_ne_empty (version : Nat) : versionETag version ≠ "" := by
  simp [versionETag]

def issued (log : List Change) : List String := log.filterMap Change.etag

def currentETag (log : List Change) (key : String) : Option String :=
  (log.reverse.find? fun change => change.key = key).bind Change.etag

theorem currentETag_snoc (log : List Change) (change : Change) (key : String) :
    currentETag (log ++ [change]) key =
      if key = change.key then change.etag else currentETag log key := by
  unfold currentETag
  rw [List.reverse_append, List.reverse_singleton, List.singleton_append, List.find?_cons]
  by_cases hkey : key = change.key
  · simp [hkey]
  · simp [hkey, Ne.symm hkey]

theorem issued_snoc (log : List Change) (change : Change) :
    issued (log ++ [change]) = issued log ++ change.etag.toList := by
  cases hetag : change.etag <;> simp [issued, hetag]

theorem currentETag_eq_iff {key etag : String} {before after : List Change}
    (honce : (issued (before ++ .put key etag :: after)).Nodup) :
    currentETag (before ++ .put key etag :: after) key = some etag ↔
      ∀ change ∈ after, change.key ≠ key := by
  induction after using List.reverseRecOn with
  | nil =>
      rw [currentETag_snoc]
      simp [Change.key, Change.etag]
  | append_singleton after change ih =>
      rw [← List.cons_append, ← List.append_assoc] at honce ⊢
      rw [issued_snoc] at honce
      rw [currentETag_snoc, List.forall_mem_append, ← ih (honce.of_append_left)]
      by_cases hkey : key = change.key
      · have hfresh : change.etag ≠ some etag := by
          intro hetag
          rw [hetag, Option.toList_some] at honce
          refine (List.nodup_append.mp honce).2.2 etag ?_ etag (by simp) rfl
          simp [issued, Change.etag]
        simp [hkey, hfresh]
      · simp [hkey, Ne.symm hkey]

theorem mem_of_currentETag {log : List Change} {key etag : String}
    (h : currentETag log key = some etag) : .put key etag ∈ log := by
  obtain ⟨change, hfind, hetag⟩ := Option.bind_eq_some_iff.mp h
  have hkey : change.key = key := by simpa using List.find?_some hfind
  have hmem := List.mem_reverse.mp (List.mem_of_find?_eq_some hfind)
  cases change with
  | put changed new =>
      cases hkey
      cases hetag
      exact hmem
  | deleted changed => cases hetag

/-! ## Runs -/

namespace StoreRun

/-- The log tells the version counter and the ETags in the store. -/
structure Logged (r : StoreRun) : Prop where
  version : issued r.log = (List.range r.store.version.toNat).map versionETag
  current : ∀ key, r.store.etagAt key = currentETag r.log key

private theorem logged_empty : Logged ⟨.empty, []⟩ := by
  refine ⟨rfl, fun key => ?_⟩
  simp [MemoryObjectStore.etagAt, MemoryObjectStore.empty, currentETag]

private theorem Logged.step {r : StoreRun} (h : Logged r) (op : StoreOp)
    (hroom : op.isPut = true → r.store.version.toNat + 1 < 2 ^ 64) :
    Logged (r.step op) ∧
      (r.step op).store.version.toNat ≤ r.store.version.toNat + (if op.isPut then 1 else 0) := by
  cases op with
  | put key data opts =>
      have hnext : (r.store.version + 1).toNat = r.store.version.toNat + 1 := by
        rw [UInt64.toNat_add, UInt64.toNat_one]
        exact Nat.mod_eq_of_lt (hroom rfl)
      simp only [StoreRun.step]
      rcases r.store.put_cases key data (resolvePutOptions opts) with hput | ⟨err, hput⟩
      · rw [hput]
        refine ⟨⟨?_, fun other => ?_⟩, le_of_eq hnext⟩
        · rw [issued_snoc, h.version]
          change _ = (List.range (r.store.version + 1).toNat).map versionETag
          rw [hnext, List.range_succ, List.map_append]
          rfl
        · rw [MemoryObjectStore.etagAt_write, currentETag_snoc, h.current]
          rfl
      · rw [hput]
        exact ⟨h, Nat.le_add_right _ _⟩
  | get key | list start => exact ⟨h, le_rfl⟩
  | delete key =>
      refine ⟨⟨?_, fun other => ?_⟩, le_rfl⟩
      · rw [StoreRun.step, issued_snoc, h.version]
        exact List.append_nil _
      · rw [StoreRun.step, MemoryObjectStore.etagAt_delete, currentETag_snoc, h.current]
        rfl

theorem logged_run (ops : List StoreOp) (hputs : ops.countP StoreOp.isPut < 2 ^ 64) :
    Logged (run ops) ∧ (run ops).store.version.toNat ≤ ops.countP StoreOp.isPut := by
  induction ops using List.reverseRecOn with
  | nil => exact ⟨logged_empty, Nat.zero_le _⟩
  | append_singleton ops op ih =>
      rw [List.countP_append, List.countP_singleton] at hputs ⊢
      obtain ⟨hlogged, hversion⟩ := ih (by omega)
      rw [run_snoc]
      obtain ⟨hstep, hle⟩ := hlogged.step op (by
        intro hput
        rw [if_pos hput] at hputs
        omega)
      exact ⟨hstep, by omega⟩

theorem Logged.issued_nodup {r : StoreRun} (h : Logged r) : (issued r.log).Nodup := by
  rw [h.version]
  exact List.nodup_range.map versionETag_injective

private theorem Logged.etag_ne_empty {r : StoreRun} (h : Logged r) {key etag : String}
    (hmem : .put key etag ∈ r.log) : etag ≠ "" := by
  have hissued : etag ∈ issued r.log := List.mem_filterMap.mpr ⟨_, hmem, rfl⟩
  rw [h.version] at hissued
  obtain ⟨version, -, rfl⟩ := List.mem_map.mp hissued
  exact versionETag_ne_empty version

theorem Logged.succeeds_iff {r : StoreRun} (h : Logged r) {key etag : String}
    {before after : List Change} (hlog : r.log = before ++ .put key etag :: after) (data : Bytes) :
    r.store.Succeeds key data [.ifMatch etag] ↔ ∀ change ∈ after, change.key ≠ key := by
  have hmem : Change.put key etag ∈ r.log := by
    rw [hlog]
    simp
  have hne := h.etag_ne_empty hmem
  have honce := h.issued_nodup
  rw [r.store.succeeds_ifMatch_iff key data hne, h.current]
  rw [hlog] at honce ⊢
  exact currentETag_eq_iff honce

private theorem log_run_append (ops more : List StoreOp) :
    (run ops).log <+: (run (ops ++ more)).log := by
  induction more using List.reverseRecOn with
  | nil => simp
  | append_singleton more op ih =>
      rw [← List.append_assoc, run_snoc]
      refine ih.trans ?_
      cases op with
      | put key data opts =>
          simp only [step]
          split <;> simp
      | get key | list start => exact List.prefix_rfl
      | delete key => simp [step]

private theorem log_of_succeeds {ops : List StoreOp} {key : String} {data : Bytes}
    {opts : List PutOption} (h : (run ops).store.Succeeds key data opts) :
    ∃ etag, (run (ops ++ [.put key data opts])).log = (run ops).log ++ [.put key etag] := by
  rw [run_snoc, step]
  rcases (run ops).store.put_cases key data (resolvePutOptions opts) with hput | ⟨err, hput⟩
  · rw [hput]
    exact ⟨_, rfl⟩
  · rw [MemoryObjectStore.Succeeds, hput] at h
    cases h

private theorem ifMatch_once {first between : List StoreOp} {key etag : String} {data : Bytes}
    (hputs : (first ++ .put key data [.ifMatch etag] :: between).countP StoreOp.isPut < 2 ^ 64)
    (hetag : etag ≠ "") (h : (run first).store.Succeeds key data [.ifMatch etag])
    (data' : Bytes) :
    ¬ (run (first ++ .put key data [.ifMatch etag] :: between)).store.Succeeds key data'
      [.ifMatch etag] := by
  have hfew : first.countP StoreOp.isPut < 2 ^ 64 := by
    rw [List.countP_append] at hputs
    omega
  have hfirst := (logged_run first hfew).1
  have hlater := (logged_run _ hputs).1
  have hcurrent := (MemoryObjectStore.succeeds_ifMatch_iff _ key data hetag).mp h
  rw [hfirst.current] at hcurrent
  obtain ⟨before, after, hlog⟩ := List.append_of_mem (mem_of_currentETag hcurrent)
  obtain ⟨new, hnew⟩ := log_of_succeeds h
  obtain ⟨rest, hrest⟩ := log_run_append (first ++ [.put key data [.ifMatch etag]]) between
  rw [List.append_assoc, List.singleton_append, hnew, hlog] at hrest
  have hlog' : (run (first ++ .put key data [.ifMatch etag] :: between)).log =
      before ++ .put key etag :: (after ++ .put key new :: rest) := by
    rw [← hrest]
    simp
  rw [hlater.succeeds_iff hlog']
  intro hnone
  exact hnone (.put key new) (by simp) rfl

/--
Conditional puts over every run.  No ETag is issued twice; one that was issued
for a key can be matched exactly until the next put or delete of that key, so
of several puts that match it one succeeds; a put that asks for an absent key
succeeds on absent keys; and a put that fails changes nothing.
-/
theorem conditional_puts (ops : List StoreOp) (hputs : ops.countP StoreOp.isPut < 2 ^ 64) :
    (issued (run ops).log).Nodup ∧
    (∀ key etag before after, (run ops).log = before ++ .put key etag :: after →
      ∀ data, (run ops).store.Succeeds key data [.ifMatch etag] ↔
        ∀ change ∈ after, change.key ≠ key) ∧
    (∀ first between last key etag data data', etag ≠ "" →
      ops = first ++ .put key data [.ifMatch etag] :: between ++
        .put key data' [.ifMatch etag] :: last →
      (run first).store.Succeeds key data [.ifMatch etag] →
      ¬ (run (first ++ .put key data [.ifMatch etag] :: between)).store.Succeeds key data'
        [.ifMatch etag]) ∧
    (∀ key data, (run ops).store.Succeeds key data [.ifNoneMatch] ↔
      (run ops).store.contents key = none) ∧
    ∀ key data opts, ¬ (run ops).store.Succeeds key data opts →
      ((run ops).store.put key data (resolvePutOptions opts)).2 = (run ops).store := by
  have hlogged := (logged_run ops hputs).1
  refine ⟨hlogged.issued_nodup, ?_, ?_, ?_, ?_⟩
  · intro key etag before after hlog data
    exact hlogged.succeeds_iff hlog data
  · rintro first between last key etag data data' hetag rfl hfirst
    rw [List.countP_append] at hputs
    exact ifMatch_once (by omega) hetag hfirst data'
  · intro key data
    exact MemoryObjectStore.succeeds_ifNoneMatch_iff _ key data
  · intro key data opts hfails
    rcases (run ops).store.put_cases key data (resolvePutOptions opts) with hput | ⟨err, hput⟩
    · rw [MemoryObjectStore.Succeeds, hput] at hfails
      exact absurd rfl hfails
    · rw [hput]

def twoWriters : List StoreOp :=
  -- two clients have read `v0`; one writes it back, and the key is deleted and made anew
  [.put "k" [1] [.ifNoneMatch], .put "k" [2] [.ifMatch "v0"], .delete "k", .put "k" [1] [],
    .put "k" [3] [.ifMatch "v0"]]

theorem conditional_puts_twoWriters :
    twoWriters.countP StoreOp.isPut < 2 ^ 64 ∧
    (run (twoWriters.take 1)).store.Succeeds "k" [2] [.ifMatch "v0"] ∧
    ¬ (run (twoWriters.take 4)).store.Succeeds "k" [3] [.ifMatch "v0"] ∧
    (issued (run twoWriters).log).Nodup := by
  obtain ⟨hissued, -, honce, -, -⟩ := conditional_puts twoWriters (by decide)
  have hfirst : (run (twoWriters.take 1)).store.Succeeds "k" [2] [.ifMatch "v0"] := by decide
  refine ⟨by decide, hfirst, ?_, hissued⟩
  exact honce (twoWriters.take 1) [.delete "k", .put "k" [1] []] [] "k" "v0" [2] [3]
    (by decide) rfl hfirst

end StoreRun

end GossipMesh.Objstore
