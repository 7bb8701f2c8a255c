import Mathlib.Data.Sym.Sym2
import GossipMesh.Foundation.Paths
import GossipMesh.Holepunch.Signal

/-!
# Signals of different pairs

Keys of signals are paths, and nothing keeps a slash out of a node ID.  Two
pairs keep out of each other's way exactly if neither path of the pair of IDs
begins the other, as is the case for IDs without slashes.
-/

namespace GossipMesh.Holepunch

open GossipMesh.Foundation GossipMesh.Objstore

/-! ## Whole calls -/

def readResult (j : Marshaller Signal) (store : MemoryObjectStore) (selfID targetID : String) :
    Option Signals :=
  let scan := readSignals store selfID targetID
  Scan.finish (addSignal j selfID targetID) store scan.todo scan.found

def cleanupSignal (store : MemoryObjectStore) (selfID targetID : String) : MemoryObjectStore :=
  (store.list (signalPrefix selfID targetID)).foldl MemoryObjectStore.delete store

inductive SignalOp where
  | write (selfID targetID : String) (now : Nat) (sig : Signal)
  | read (selfID targetID : String)
  | cleanup (selfID targetID : String)

namespace SignalOp

def pair : SignalOp → Sym2 String
  | .write selfID targetID _ _ | .read selfID targetID | .cleanup selfID targetID =>
      s(selfID, targetID)

def apply (j : Marshaller Signal) (store : MemoryObjectStore) : SignalOp → MemoryObjectStore
  -- a signal that cannot be marshalled leaves the store as it is
  | .write selfID targetID now sig =>
      (writeSignalForPeer j now store selfID targetID sig).getD store
  | .read _ _ => store
  | .cleanup selfID targetID => cleanupSignal store selfID targetID

end SignalOp

/-! ## Paths -/

def segments (id : String) : List (List Char) := id.toList.splitOn '/'

def path (id1 id2 : String) : List (List Char) :=
  if id2 < id1 then segments id2 ++ segments id1 else segments id1 ++ segments id2

def Apart (a b c d : String) : Prop := ¬ path a b <+: path c d ∧ ¬ path c d <+: path a b

instance (a b c d : String) : Decidable (Apart a b c d) :=
  inferInstanceAs (Decidable (_ ∧ _))

private theorem signalPrefix_toList (a b : String) :
    ∃ x, (signalPrefix a b).toList = x ++ ['/'] ∧
      x.splitOn '/' = "signal".toList :: path a b := by
  have hsignal : ∀ first second : String,
      ("signal".toList ++ '/' :: (first.toList ++ '/' :: second.toList)).splitOn '/' =
        "signal".toList :: (segments first ++ segments second) := by
    intro first second
    rw [splitOn_append_cons, splitOn_append_cons]
    rfl
  unfold signalPrefix path
  split
  · exact ⟨_, by simp, hsignal b a⟩
  · exact ⟨_, by simp, hsignal a b⟩

theorem signalPrefix_prefix_iff {a b c d : String} :
    (signalPrefix a b).toList <+: (signalPrefix c d).toList ↔ path a b <+: path c d := by
  obtain ⟨x, hx, hsplitx⟩ := signalPrefix_toList a b
  obtain ⟨y, hy, hsplity⟩ := signalPrefix_toList c d
  rw [hx, hy, snoc_prefix_snoc_iff, hsplitx, hsplity]
  exact List.prefix_cons_inj _

theorem not_prefix_of_apart {a b c d key : String} (h : Apart a b c d)
    (hab : (signalPrefix a b).toList <+: key.toList) :
    ¬ (signalPrefix c d).toList <+: key.toList := by
  intro hcd
  rcases List.prefix_or_prefix_of_prefix hab hcd with hle | hle
  · exact h.1 (signalPrefix_prefix_iff.mp hle)
  · exact h.2 (signalPrefix_prefix_iff.mp hle)

theorem path_of_slashless {a b : String} (ha : '/' ∉ a.toList) (hb : '/' ∉ b.toList) :
    path a b = [a.toList, b.toList] ∨ path a b = [b.toList, a.toList] := by
  unfold path segments
  rw [List.splitOn_eq_singleton ha, List.splitOn_eq_singleton hb]
  split
  · exact .inr rfl
  · exact .inl rfl

private theorem length_path_of_slashless {a b : String} (ha : '/' ∉ a.toList) (hb : '/' ∉ b.toList) :
    (path a b).length = 2 := by
  rcases path_of_slashless ha hb with hab | hab <;> rw [hab] <;> rfl

theorem apart_of_slashless {a b c d : String} (ha : '/' ∉ a.toList) (hb : '/' ∉ b.toList)
    (hc : '/' ∉ c.toList) (hd : '/' ∉ d.toList) (hne : s(a, b) ≠ s(c, d)) : Apart a b c d := by
  have hpath : path a b ≠ path c d := by
    intro heq
    apply hne
    rw [Sym2.eq_iff]
    rcases path_of_slashless ha hb with hab | hab <;> rcases path_of_slashless hc hd with hcd | hcd
    all_goals
      rw [hab, hcd] at heq
      simp only [List.cons.injEq, String.toList_inj, and_true] at heq
      tauto
  have hlength := (length_path_of_slashless ha hb).trans (length_path_of_slashless hc hd).symm
  exact ⟨fun h => hpath (h.eq_of_length hlength),
    fun h => hpath (h.eq_of_length hlength.symm).symm⟩

/-! ## Frames -/

section Frame

variable {j : Marshaller Signal} {store : MemoryObjectStore} {a b c d key : String}

theorem contents_cleanupSignal :
    (cleanupSignal store a b).contents key =
      if (signalPrefix a b).toList <+: key.toList then none else store.contents key := by
  rw [cleanupSignal, MemoryObjectStore.contents_foldl_delete]
  simp only [MemoryObjectStore.mem_list]
  by_cases hkey : (signalPrefix a b).toList <+: key.toList
  · cases hcontents : store.contents key <;> simp [hkey]
  · simp [hkey]

private theorem SignalOp.contents_apply {op : SignalOp}
    (h : ∀ c d, s(c, d) = op.pair → Apart a b c d)
    (hkey : (signalPrefix a b).toList <+: key.toList) :
    (op.apply j store).contents key = store.contents key := by
  cases op with
  | write c d now sig =>
      have hne : key ≠ signalKey c d c := by
        rintro rfl
        exact not_prefix_of_apart (h c d rfl) hkey (signalPrefix_signalKey c d c)
      simp only [apply, writeSignalForPeer]
      cases j.marshal { sig with time := now } with
      | none => rfl
      | some data =>
          simp [MemoryObjectStore.put_noOptions, MemoryObjectStore.contents_write, hne]
  | read c d => rfl
  | cleanup c d =>
      rw [apply, contents_cleanupSignal, if_neg (not_prefix_of_apart (h c d rfl) hkey)]

theorem contents_run {others : Set (Sym2 String)}
    (h : ∀ c d, s(c, d) ∈ others → Apart a b c d) {ops : List SignalOp}
    (hops : ∀ op ∈ ops, op.pair ∈ others)
    (hkey : (signalPrefix a b).toList <+: key.toList) :
    (ops.foldl (SignalOp.apply j) store).contents key = store.contents key := by
  induction ops generalizing store with
  | nil => rfl
  | cons op ops ih =>
      rw [List.foldl_cons, ih fun op' hop' => hops op' (by simp [hop'])]
      refine SignalOp.contents_apply (fun c d hpair => h c d ?_) hkey
      rw [hpair]
      exact hops op (by simp)

theorem readResult_congr {store' : MemoryObjectStore}
    (h : ∀ key, (signalPrefix a b).toList <+: key.toList →
      store.contents key = store'.contents key) :
    readResult j store a b = readResult j store' a b := by
  simp only [readResult, readSignals, Scan.start]
  rw [MemoryObjectStore.list_congr h]
  refine Scan.finish_congr _ (fun key hkey => h key ?_) _
  exact (MemoryObjectStore.mem_list.mp hkey).2

end Frame

/-! ## Interference -/

section Interference

variable {j : Marshaller Signal} {a b c d : String}

private theorem readResult_empty : readResult j .empty a b = some ⟨none, none⟩ := rfl

private theorem readResult_write {sig : Signal} {data : Bytes} (hdata : j.unmarshal data = some sig)
    (hid : sig.nodeID = a) :
    readResult j (MemoryObjectStore.empty.write (signalKey a b a) data) a b =
      some ⟨some sig, none⟩ := by
  have hlist : (MemoryObjectStore.empty.write (signalKey a b a) data).list (signalPrefix a b) =
      [signalKey a b a] := by
    refine MemoryObjectStore.list_eq_singleton fun other => ?_
    rw [MemoryObjectStore.contents_write]
    constructor
    · rintro ⟨hthere, -⟩
      split at hthere
      · assumption
      · cases hthere
    · rintro rfl
      exact ⟨by simp, signalPrefix_signalKey a b a⟩
  simp only [readResult, readSignals, Scan.start, hlist]
  rw [Scan.finish_cons, MemoryObjectStore.contents_write, if_pos rfl]
  simp [addSignal, hdata, hid, Scan.finish]

private theorem readResult_cleanupSignal (h : path c d <+: path a b) (store : MemoryObjectStore) :
    readResult j (cleanupSignal store c d) a b = some ⟨none, none⟩ := by
  rw [← readResult_empty (j := j) (a := a) (b := b)]
  refine readResult_congr fun key hkey => ?_
  rw [contents_cleanupSignal, if_pos ((signalPrefix_prefix_iff.mpr h).trans hkey)]
  rfl

/--
The order of the two IDs does not matter; and for any set of other pairs, none
of their keys is listed or deleted for the pair `a` and `b` and none of their
operations changes what is read for it, exactly if all of them are apart from
it.
-/
theorem signals_apart_iff (j : Marshaller Signal) (a b : String) (others : Set (Sym2 String))
    (hjson : ∃ sig data, sig.nodeID = a ∧ j.marshal sig = some data) :
    ((∀ writerID, signalKey a b writerID = signalKey b a writerID) ∧
      signalPrefix a b = signalPrefix b a ∧
      (∀ c d, s(c, d) ∈ others → ∀ store : MemoryObjectStore,
        signalKey c d c ∉ store.list (signalPrefix a b) ∧
        (cleanupSignal store a b).contents (signalKey c d c) =
          store.contents (signalKey c d c)) ∧
      ∀ (store : MemoryObjectStore) (ops : List SignalOp), (∀ op ∈ ops, op.pair ∈ others) →
        readResult j (ops.foldl (SignalOp.apply j) store) a b = readResult j store a b) ↔
    ∀ c d, s(c, d) ∈ others → Apart a b c d := by
  constructor
  · rintro ⟨-, -, hkeys, hreads⟩ c d hmem
    constructor
    · intro hle
      apply (hkeys c d hmem (MemoryObjectStore.empty.write (signalKey c d c) [])).1
      rw [MemoryObjectStore.mem_list, MemoryObjectStore.contents_write, if_pos rfl]
      exact ⟨rfl, (signalPrefix_prefix_iff.mpr hle).trans (signalPrefix_signalKey c d c)⟩
    · intro hle
      obtain ⟨sig, data, hid, hdata⟩ := hjson
      have hread := hreads (MemoryObjectStore.empty.write (signalKey a b a) data)
        [.cleanup c d] (by simpa [SignalOp.pair] using hmem)
      rw [readResult_write (j.lossless _ _ hdata) hid, List.foldl_cons, List.foldl_nil,
        SignalOp.apply, readResult_cleanupSignal hle] at hread
      cases hread
  · intro hapart
    refine ⟨signalKey_comm a b, signalPrefix_comm a b, fun c d hmem store => ?_, ?_⟩
    · have hkey : ¬ (signalPrefix a b).toList <+: (signalKey c d c).toList := fun hab =>
        not_prefix_of_apart (hapart c d hmem) hab (signalPrefix_signalKey c d c)
      refine ⟨fun hlisted => hkey (MemoryObjectStore.mem_list.mp hlisted).2, ?_⟩
      rw [contents_cleanupSignal, if_neg hkey]
    · intro store ops hops
      exact readResult_congr fun key hkey => contents_run hapart hops hkey

def slashSignal : Signal := ⟨"x", "10.0.0.1:7946", "1", 1⟩

def slashCodec : Marshaller Signal := .ofList [slashSignal] (by decide)

theorem signals_apart_iff_slashless :
    readResult slashCodec
        ([.write "x" "z" 1 slashSignal, .cleanup "z" "x"].foldl (SignalOp.apply slashCodec)
          (SignalOp.apply slashCodec .empty (.write "x" "y" 1 slashSignal))) "x" "y" =
      readResult slashCodec
        (SignalOp.apply slashCodec .empty (.write "x" "y" 1 slashSignal)) "x" "y" := by
  have hapart : ∀ c d, s(c, d) ∈ ({s("x", "z")} : Set (Sym2 String)) → Apart "x" "y" c d := by
    intro c d hmem
    rcases Sym2.eq_iff.mp hmem with ⟨rfl, rfl⟩ | ⟨rfl, rfl⟩
    · exact apart_of_slashless (by decide) (by decide) (by decide) (by decide) (by decide)
    · exact apart_of_slashless (by decide) (by decide) (by decide) (by decide) (by decide)
  obtain ⟨-, -, -, hreads⟩ := (signals_apart_iff slashCodec "x" "y" {s("x", "z")}
    ⟨slashSignal, [0], rfl, rfl⟩).mpr hapart
  exact hreads _ _ (by decide)

/--
A signal of `x` for `y/z` is read for `x` and `y`, who have written none, and
cleaned up by them.
-/
theorem signals_slash_interfere :
    s("x", "y") ≠ s("x", "y/z") ∧
      signalKey "x" "y/z" "x" ∈
        (SignalOp.apply slashCodec .empty (.write "x" "y/z" 1 slashSignal)).list
          (signalPrefix "x" "y") ∧
      readResult slashCodec .empty "x" "y" = some ⟨none, none⟩ ∧
      readResult slashCodec
        (SignalOp.apply slashCodec .empty (.write "x" "y/z" 1 slashSignal)) "x" "y" =
        some ⟨some slashSignal, none⟩ ∧
      (cleanupSignal (SignalOp.apply slashCodec .empty (.write "x" "y/z" 1 slashSignal))
        "x" "y").contents (signalKey "x" "y/z" "x") = none := by
  decide

end Interference

end GossipMesh.Holepunch
