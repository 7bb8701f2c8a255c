import Mathlib.Data.Finmap
import GossipMesh.Engine.EagerWriter
import GossipMesh.Foundation.Mutex

/-!
# Concurrent eager sends

Any number of goroutines are in `eagerForward` with a message that needs
streams.  For each peer they take the writer of its address from the map of
`getEagerStream`, which `eagerStreamMu` guards, and call `send`, which holds
the writer's own mutex while it opens a stream and writes to it.  A goroutine is
cut at every lock, open and write, so sends to one address overlap in any way
the mutexes allow.
-/

namespace GossipMesh.Engine

open GossipMesh.Foundation

structure SharedWriter where
  addr : String
  locked : Bool
  writer : EagerStreamWriter
  results : List Bool
  calls : List WriterCall

structure EagerSenders where
  -- the indices of the writers, by address
  eagerStreams : Finmap (fun _ : String => Nat)
  writers : List SharedWriter

structure SendJob where
  entry : GossipEntry
  addr : String
  writer : Nat
  rest : List String
  deriving DecidableEq

/--
Where a goroutine is, named by its next operation.  At `forward` it is between
two sends.  The faults are those of the operations of the current `send`.
-/
inductive SendPoint where
  | forward (entry : GossipEntry) (addrs : List String)
  | lock (job : SendJob)
  | openUniStream (job : SendJob)
  | writeType (job : SendJob)
  | writeHeader (job : SendJob) (faults : Faults)
  | writeBody (job : SendJob) (faults : Faults)
  | unlock (job : SendJob)

inductive SendChoice where
  | proceed
  | opens
  | openFails
  | writes (fault : Option Nat)

namespace SharedWriter

def new (addr : String) : SharedWriter := ⟨addr, false, .new, [], []⟩

def finish (cell : SharedWriter) (writer : EagerStreamWriter) (entry : GossipEntry)
    (faults : Faults) (result : Bool) : SharedWriter :=
  { cell with
    writer := writer
    results := cell.results ++ [result]
    calls := cell.calls ++ [.send entry faults] }

def operate (cell : SharedWriter) : SendPoint → SendChoice →
    Option (SharedWriter × SendPoint)
  | .lock job, .proceed =>
      if cell.locked then none else some ({ cell with locked := true }, .openUniStream job)
  | .openUniStream job, .proceed =>
      cell.writer.stream.map fun _ => (cell, .writeHeader job ⟨true, none, none, none⟩)
  | .openUniStream job, .opens =>
      if cell.writer.stream.isNone then some (cell, .writeType job) else none
  | .openUniStream job, .openFails =>
      if cell.writer.stream.isNone then
        some (cell.finish cell.writer job.entry ⟨false, none, none, none⟩ false, .unlock job)
      else none
  | .writeType job, .writes fault =>
      let typed := write fault [streamTypeEagerStream]
      let faults : Faults := ⟨true, fault, none, none⟩
      if typed.2 then
        some ({ cell with writer := { cell.writer with stream := some ⟨typed.1, []⟩ } },
          .writeHeader job faults)
      else
        some (cell.finish { cell.writer with closed := cell.writer.closed ++ [⟨typed.1, []⟩] }
          job.entry faults false, .unlock job)
  | .writeHeader job faults, .writes fault =>
      cell.writer.stream.map fun s =>
        let msg := encodeEagerMessage job.entry
        let hdr := write fault (putUint32 (UInt32.ofNat msg.length))
        let s := ⟨s.bytes ++ hdr.1, s.attempted ++ [(cell.results.length, msg)]⟩
        let faults := { faults with header := fault }
        if hdr.2 then
          ({ cell with writer := { cell.writer with stream := some s } }, .writeBody job faults)
        else
          (cell.finish ⟨cell.writer.closed ++ [s], none⟩ job.entry faults false, .unlock job)
  | .writeBody job faults, .writes fault =>
      cell.writer.stream.map fun s =>
        let payload := write fault (encodeEagerMessage job.entry)
        let s := { s with bytes := s.bytes ++ payload.1 }
        let faults := { faults with body := fault }
        if payload.2 then
          (cell.finish { cell.writer with stream := some s } job.entry faults true, .unlock job)
        else
          (cell.finish ⟨cell.writer.closed ++ [s], none⟩ job.entry faults false, .unlock job)
  | .unlock job, .proceed =>
      some ({ cell with locked := false }, .forward job.entry job.rest)
  | _, _ => none

end SharedWriter

def SendPoint.job : SendPoint → Option SendJob
  | .forward _ _ => none
  | .lock job | .openUniStream job | .writeType job | .writeHeader job _ | .writeBody job _
  | .unlock job => some job

/-- The writer a goroutine has locked. -/
def SendPoint.held : SendPoint → Option Nat
  | .forward _ _ | .lock _ => none
  | .openUniStream job | .writeType job | .writeHeader job _ | .writeBody job _
  | .unlock job => some job.writer

theorem SendPoint.held_of_job {p : SendPoint} {job : SendJob} (hjob : p.job = some job)
    (hlock : p ≠ .lock job) : p.held = some job.writer := by
  cases p with
  | forward => cases hjob
  | lock =>
      cases hjob
      exact absurd rfl hlock
  | openUniStream | writeType | writeHeader | writeBody | unlock =>
      cases hjob
      rfl

theorem SendPoint.job_of_held {p : SendPoint} {id : Nat} (hp : p.held = some id) :
    ∃ job, p.job = some job ∧ job.writer = id := by
  cases p with
  | forward | lock => cases hp
  | openUniStream job | writeType job | writeHeader job | writeBody job | unlock job =>
      exact ⟨job, rfl, Option.some.inj hp⟩

namespace EagerSenders

def new : EagerSenders := ⟨∅, []⟩

def getEagerStream (m : EagerSenders) (addr : String) : EagerSenders × Nat :=
  match m.eagerStreams.lookup addr with
  | some id => (m, id)
  | none =>
      (⟨m.eagerStreams.insert addr m.writers.length, m.writers ++ [.new addr]⟩,
        m.writers.length)

def put (m : EagerSenders) (id : Nat) (cell : SharedWriter) : EagerSenders :=
  { m with writers := m.writers.set id cell }

def sendStep (m : EagerSenders) (p : SendPoint) (c : SendChoice) :
    Option (EagerSenders × SendPoint) :=
  p.job.bind fun job => m.writers[job.writer]?.bind fun cell =>
    (cell.operate p c).map fun next => (m.put job.writer next.1, next.2)

def operate (m : EagerSenders) (p : SendPoint) (c : SendChoice) :
    Option (EagerSenders × SendPoint × List SendPoint) :=
  match p, c with
  | .forward entry (addr :: rest), .proceed =>
      let found := m.getEagerStream addr
      some (found.1, .lock ⟨entry, addr, found.2, rest⟩, [])
  | p, c => (m.sendStep p c).map fun next => (next.1, next.2, [])

end EagerSenders

/-! ## One send -/

/-- The writer is where its calls in their order would have left it. -/
def SharedWriter.Serial (cell : SharedWriter) : Prop :=
  (cell.writer, cell.results) = writerRun cell.calls

/-- How far into its `send` a goroutine has brought the writer it has locked. -/
def SendPoint.Matches : SendPoint → SharedWriter → Prop
  | .writeType _, cell => cell.Serial ∧ cell.writer.stream = none
  | .writeHeader _ faults, cell =>
      cell.results = (writerRun cell.calls).2 ∧
      cell.writer = (writerRun cell.calls).1.openStream faults ∧
      ∃ s, cell.writer.stream = some s
  | .writeBody job faults, cell =>
      cell.results = (writerRun cell.calls).2 ∧ faults.header = none ∧
      ∃ s, ((writerRun cell.calls).1.openStream faults).stream = some s ∧
        cell.writer = { (writerRun cell.calls).1.openStream faults with
          stream := some ⟨s.bytes ++
              putUint32 (UInt32.ofNat (encodeEagerMessage job.entry).length),
            s.attempted ++ [(cell.results.length, encodeEagerMessage job.entry)]⟩ }
  | _, cell => cell.Serial

private theorem writerRun_snoc (calls : List WriterCall) (entry : GossipEntry) (faults : Faults) :
    writerRun (calls ++ [.send entry faults]) =
      (((writerRun calls).1.send (writerRun calls).2.length (encodeEagerMessage entry)
          faults).1,
        (writerRun calls).2 ++ [((writerRun calls).1.send (writerRun calls).2.length
          (encodeEagerMessage entry) faults).2]) := by
  simp [writerRun, writerStep]

theorem EagerStreamWriter.send_of_stream {w : EagerStreamWriter} {faults : Faults}
    {s : UniStream} (hopen : (w.openStream faults).stream = some s) (number : Nat)
    (msg : Bytes) :
    w.send number msg faults = (w.openStream faults).writeFrame s number msg faults := by
  simp [EagerStreamWriter.send, hopen]

namespace SharedWriter

variable {cell cell' : SharedWriter}

theorem serial_finish {writer : EagerStreamWriter} {entry : GossipEntry} {faults : Faults}
    {result : Bool} (hresults : cell.results = (writerRun cell.calls).2)
    (hsend : (writerRun cell.calls).1.send cell.results.length (encodeEagerMessage entry)
      faults = (writer, result)) :
    (cell.finish writer entry faults result).Serial := by
  rw [hresults] at hsend
  simp [Serial, finish, writerRun_snoc, hsend, hresults]

theorem matches_openUniStream {job : SendJob} {c : SendChoice} {p' : SendPoint}
    (hop : cell.operate (.openUniStream job) c = some (cell', p')) (h : cell.Serial) :
    p'.Matches cell' := by
  obtain ⟨hwriter, hresults⟩ := Prod.ext_iff.mp h
  cases c with
  | proceed =>
      obtain ⟨s, hs, ⟨⟩⟩ := Option.map_eq_some_iff.mp hop
      refine ⟨hresults, ?_, s, hs⟩
      rw [← hwriter]
      simp [EagerStreamWriter.openStream, hs]
  | opens =>
      simp only [operate, Option.ite_none_right_eq_some] at hop
      obtain ⟨hnone, ⟨⟩⟩ := hop
      exact ⟨h, Option.isNone_iff_eq_none.mp hnone⟩
  | openFails =>
      simp only [operate, Option.ite_none_right_eq_some] at hop
      obtain ⟨hnone, ⟨⟩⟩ := hop
      apply serial_finish hresults
      rw [← hwriter]
      simp [EagerStreamWriter.send, EagerStreamWriter.openStream,
        Option.isNone_iff_eq_none.mp hnone]
  | writes fault => cases hop

theorem matches_writeType {job : SendJob} {c : SendChoice} {p' : SendPoint}
    (hop : cell.operate (.writeType job) c = some (cell', p')) (h : cell.Serial)
    (hnone : cell.writer.stream = none) : p'.Matches cell' := by
  obtain ⟨hwriter, hresults⟩ := Prod.ext_iff.mp h
  cases c with
  | writes fault =>
      simp only [operate] at hop
      split at hop
      · next hok =>
          cases hop
          refine ⟨hresults, ?_, _, rfl⟩
          change _ = (writerRun cell.calls).1.openStream _
          rw [← hwriter]
          simp [EagerStreamWriter.openStream, hnone, hok]
      · next hfail =>
          cases hop
          apply serial_finish hresults
          rw [← hwriter]
          simp [EagerStreamWriter.send, EagerStreamWriter.openStream, hnone, hfail]
  | proceed | opens | openFails => cases hop

theorem matches_writeHeader {job : SendJob} {faults : Faults} {c : SendChoice}
    {p' : SendPoint} (hop : cell.operate (.writeHeader job faults) c = some (cell', p'))
    (h : (SendPoint.writeHeader job faults).Matches cell) : p'.Matches cell' := by
  obtain ⟨hresults, hwriter, -⟩ := h
  cases c with
  | writes fault =>
      obtain ⟨s, hs, hop⟩ := Option.map_eq_some_iff.mp hop
      have hopen : ((writerRun cell.calls).1.openStream
          { faults with header := fault }).stream = some s := by
        rw [← hs, hwriter]
        rfl
      simp only at hop
      split at hop
      · next hok =>
          cases hop
          have hfault : fault = none := by
            cases fault with
            | none => rfl
            | some n => cases hok
          refine ⟨hresults, hfault, s, hopen, ?_⟩
          subst hfault
          simp only [hwriter]
          rfl
      · next hfail =>
          cases hop
          apply serial_finish hresults
          rw [EagerStreamWriter.send_of_stream hopen]
          simp only [EagerStreamWriter.writeFrame, hfail, hwriter]
          rfl
  | proceed | opens | openFails => cases hop

theorem matches_writeBody {job : SendJob} {faults : Faults} {c : SendChoice}
    {p' : SendPoint} (hop : cell.operate (.writeBody job faults) c = some (cell', p'))
    (h : (SendPoint.writeBody job faults).Matches cell) : p'.Matches cell' := by
  obtain ⟨hresults, hheader, s, hopen, hwriter⟩ := h
  cases c with
  | writes fault =>
      obtain ⟨s', hs', hop⟩ := Option.map_eq_some_iff.mp hop
      rw [hwriter] at hs'
      cases hs'
      have hopen' : ((writerRun cell.calls).1.openStream
          { faults with body := fault }).stream = some s := hopen
      simp only at hop
      split at hop
      · next hok =>
          cases hop
          apply serial_finish hresults
          rw [EagerStreamWriter.send_of_stream hopen']
          simp only [EagerStreamWriter.writeFrame, hheader, hok, hwriter]
          rfl
      · next hfail =>
          cases hop
          apply serial_finish hresults
          rw [EagerStreamWriter.send_of_stream hopen']
          simp only [EagerStreamWriter.writeFrame, hheader, hfail, hwriter]
          rfl
  | proceed | opens | openFails => cases hop

def ledger (cell : SharedWriter) : Multiset (String × GossipEntry) :=
  ↑((sentEntries cell.calls).map fun entry => (cell.addr, entry))

end SharedWriter

def SendPoint.carried : SendPoint → Multiset (String × GossipEntry)
  | .forward entry addrs => ↑(addrs.map fun addr => (addr, entry))
  | .unlock job => ↑(job.rest.map fun addr => (addr, job.entry))
  | .lock job | .openUniStream job | .writeType job | .writeHeader job _ | .writeBody job _ =>
      (job.addr, job.entry) ::ₘ ↑(job.rest.map fun addr => (addr, job.entry))

namespace SharedWriter

variable {cell cell' : SharedWriter}

private theorem ledger_finish (writer : EagerStreamWriter) (entry : GossipEntry) (faults : Faults)
    (result : Bool) :
    (cell.finish writer entry faults result).ledger =
      (cell.addr, entry) ::ₘ cell.ledger := by
  simp [ledger, finish, sentEntries, WriterCall.entry]

structure Kept (cell : SharedWriter) (p : SendPoint) (job : SendJob) (cell' : SharedWriter)
    (p' : SendPoint) : Prop where
  sending : p'.job = some job
  held : p'.held = some job.writer
  locked : cell'.locked = cell.locked
  addr : cell'.addr = cell.addr
  ledger : cell.addr = job.addr → cell'.ledger + p'.carried = cell.ledger + p.carried

private theorem kept_finish {p : SendPoint} {job : SendJob} (writer : EagerStreamWriter)
    (faults : Faults) (result : Bool)
    (hp : p.carried = (job.addr, job.entry) ::ₘ ↑(job.rest.map fun addr => (addr, job.entry))) :
    Kept cell p job (cell.finish writer job.entry faults result) (.unlock job) where
  sending := rfl
  held := rfl
  locked := rfl
  addr := rfl
  ledger := by
    intro haddr
    rw [ledger_finish, hp, haddr, Multiset.cons_add, Multiset.add_cons]
    rfl

theorem operate_kept {p p' : SendPoint} {c : SendChoice} {job : SendJob}
    (hop : cell.operate p c = some (cell', p')) (hjob : p.job = some job)
    (hlock : p ≠ .lock job) (hunlock : p ≠ .unlock job) : Kept cell p job cell' p' := by
  unfold operate at hop
  split at hop
  · cases hjob
    exact absurd rfl hlock
  · cases hjob
    obtain ⟨s, hs, ⟨⟩⟩ := Option.map_eq_some_iff.mp hop
    exact ⟨rfl, rfl, rfl, rfl, fun _ => rfl⟩
  · cases hjob
    obtain ⟨hnone, ⟨⟩⟩ := Option.ite_none_right_eq_some.mp hop
    exact ⟨rfl, rfl, rfl, rfl, fun _ => rfl⟩
  · cases hjob
    obtain ⟨hnone, ⟨⟩⟩ := Option.ite_none_right_eq_some.mp hop
    exact kept_finish _ _ _ rfl
  · cases hjob
    simp only at hop
    split at hop
    · cases hop
      exact ⟨rfl, rfl, rfl, rfl, fun _ => rfl⟩
    · cases hop
      exact kept_finish _ _ _ rfl
  · cases hjob
    obtain ⟨s, hs, hop⟩ := Option.map_eq_some_iff.mp hop
    simp only at hop
    split at hop
    · cases hop
      exact ⟨rfl, rfl, rfl, rfl, fun _ => rfl⟩
    · cases hop
      exact kept_finish _ _ _ rfl
  · cases hjob
    obtain ⟨s, hs, hop⟩ := Option.map_eq_some_iff.mp hop
    simp only at hop
    split at hop
    · cases hop
      exact kept_finish _ _ _ rfl
    · cases hop
      exact kept_finish _ _ _ rfl
  · cases hjob
    exact absurd rfl hunlock
  · cases hop

private theorem operate_matches {p p' : SendPoint} {c : SendChoice} {job : SendJob}
    (hop : cell.operate p c = some (cell', p')) (hjob : p.job = some job)
    (hlock : p ≠ .lock job) (hunlock : p ≠ .unlock job) (h : p.Matches cell) :
    p'.Matches cell' := by
  cases p with
  | forward => cases hjob
  | lock =>
      cases hjob
      exact absurd rfl hlock
  | openUniStream => exact matches_openUniStream hop h
  | writeType => exact matches_writeType hop h.1 h.2
  | writeHeader => exact matches_writeHeader hop h
  | writeBody => exact matches_writeBody hop h
  | unlock =>
      cases hjob
      exact absurd rfl hunlock

end SharedWriter

/-! ## All goroutines -/

/-- What an operation does, as far as the writers and the goroutine's place are concerned. -/
inductive SendMoves (m : EagerSenders) (p : SendPoint) (m' : EagerSenders) (p' : SendPoint) :
    Prop
  | found (entry : GossipEntry) (addr : String) (rest : List String) (id : Nat)
      (hp : p = .forward entry (addr :: rest)) (hlookup : m.eagerStreams.lookup addr = some id)
      (hm' : m' = m) (hp' : p' = .lock ⟨entry, addr, id, rest⟩)
  | created (entry : GossipEntry) (addr : String) (rest : List String)
      (hp : p = .forward entry (addr :: rest)) (hlookup : m.eagerStreams.lookup addr = none)
      (hm' : m' = ⟨m.eagerStreams.insert addr m.writers.length, m.writers ++ [.new addr]⟩)
      (hp' : p' = .lock ⟨entry, addr, m.writers.length, rest⟩)
  | locked (job : SendJob) (cell : SharedWriter) (hcell : m.writers[job.writer]? = some cell)
      (hp : p = .lock job) (hfree : cell.locked = false)
      (hm' : m' = m.put job.writer { cell with locked := true })
      (hp' : p' = .openUniStream job)
  | inside (job : SendJob) (cell cell' : SharedWriter)
      (hcell : m.writers[job.writer]? = some cell) (hp : p.held = some job.writer)
      (hjob : p.job = some job) (hm' : m' = m.put job.writer cell')
      (hkept : cell.Kept p job cell' p') (hmatches : p.Matches cell → p'.Matches cell')
  | unlocked (job : SendJob) (cell : SharedWriter)
      (hcell : m.writers[job.writer]? = some cell) (hp : p = .unlock job)
      (hm' : m' = m.put job.writer { cell with locked := false })
      (hp' : p' = .forward job.entry job.rest)

namespace EagerSenders

variable {m m' : EagerSenders} {p p' : SendPoint} {c : SendChoice} {new : List SendPoint}

private theorem sendStep_moves (h : m.sendStep p c = some (m', p')) : SendMoves m p m' p' := by
  obtain ⟨job, hjob, h⟩ := Option.bind_eq_some_iff.mp h
  obtain ⟨cell, hcell, h⟩ := Option.bind_eq_some_iff.mp h
  obtain ⟨⟨cell', q⟩, hop, ⟨⟩⟩ := Option.map_eq_some_iff.mp h
  by_cases hlock : p = .lock job
  · subst hlock
    cases c with
    | proceed =>
        obtain ⟨hfree, ⟨⟩⟩ := Option.ite_none_left_eq_some.mp hop
        exact .locked job cell hcell rfl (by simpa using hfree) rfl rfl
    | opens | openFails | writes => cases hop
  · by_cases hunlock : p = .unlock job
    · subst hunlock
      cases c with
      | proceed =>
          cases hop
          exact .unlocked job cell hcell rfl rfl rfl
      | opens | openFails | writes => cases hop
    · exact .inside job cell cell' hcell (SendPoint.held_of_job hjob hlock) hjob rfl
        (SharedWriter.operate_kept hop hjob hlock hunlock)
        (SharedWriter.operate_matches hop hjob hlock hunlock)

theorem operate_moves (h : m.operate p c = some (m', p', new)) :
    new = [] ∧ SendMoves m p m' p' := by
  unfold operate at h
  split at h
  · next entry addr rest =>
      cases hlookup : m.eagerStreams.lookup addr with
      | some id =>
          simp only [getEagerStream, hlookup] at h
          cases h
          exact ⟨rfl, .found entry addr rest id rfl hlookup rfl rfl⟩
      | none =>
          simp only [getEagerStream, hlookup] at h
          cases h
          exact ⟨rfl, .created entry addr rest rfl hlookup rfl rfl⟩
  · obtain ⟨⟨m'', q⟩, hstep, ⟨⟩⟩ := Option.map_eq_some_iff.mp h
    exact ⟨rfl, sendStep_moves hstep⟩

theorem getElem?_put {id : Nat} {cell : SharedWriter} (hcell : m.writers[id]? = some cell)
    (cell' : SharedWriter) : (m.put id cell').writers[id]? = some cell' :=
  List.getElem?_set_self (List.getElem?_eq_some_iff.mp hcell).1

theorem getElem?_put_of_ne {id j : Nat} (hj : j ≠ id) (cell' : SharedWriter) :
    (m.put id cell').writers[j]? = m.writers[j]? :=
  List.getElem?_set_ne (Ne.symm hj)

def LockedAt (m : EagerSenders) (id : Nat) : Bool :=
  m.writers[id]?.any fun cell => cell.locked

def FreeAt (m : EagerSenders) (id : Nat) : Prop :=
  ∀ cell, m.writers[id]? = some cell → cell.Serial

def OwnedAt (m : EagerSenders) (id : Nat) (p : SendPoint) : Prop :=
  ∃ cell, m.writers[id]? = some cell ∧ p.Matches cell

theorem frame_of_getElem? {id : Nat} (h : m'.writers[id]? = m.writers[id]?) :
    Threads.Frame LockedAt FreeAt OwnedAt m m' id where
  locked := by rw [LockedAt, h, LockedAt]
  free := by
    intro hfree
    rw [FreeAt, h]
    exact hfree
  owned := by
    intro p howned
    rw [OwnedAt, h]
    exact howned

private theorem frame_create (streams : Finmap (fun _ : String => Nat)) (addr : String) (id : Nat) :
    Threads.Frame LockedAt FreeAt OwnedAt m ⟨streams, m.writers ++ [.new addr]⟩ id := by
  by_cases hid : id = m.writers.length
  · subst hid
    refine ⟨by simp [LockedAt, SharedWriter.new], fun _ cell hcell => ?_, ?_⟩
    · obtain rfl : SharedWriter.new addr = cell := by simpa using hcell
      rfl
    · rintro p ⟨cell, hcell, -⟩
      simp at hcell
  · apply frame_of_getElem?
    rcases Nat.lt_or_gt_of_ne hid with hlt | hgt
    · exact List.getElem?_append_left hlt
    · rw [List.getElem?_eq_none (by simp; omega), List.getElem?_eq_none hgt.le]

theorem moves_guarded (h : SendMoves m p m' p') :
    Threads.Guarded LockedAt SendPoint.held FreeAt OwnedAt m m' p p' := by
  cases h with
  | found entry addr rest id hp hlookup hm' hp' =>
      subst hp hm' hp'
      exact .outside rfl rfl fun _ => frame_of_getElem? rfl
  | created entry addr rest hp hlookup hm' hp' =>
      subst hp hm' hp'
      exact .outside rfl rfl (frame_create _ addr)
  | locked job cell hcell hp hfree hm' hp' =>
      subst hp hm' hp'
      have hput := getElem?_put hcell { cell with locked := true }
      refine .acquire job.writer rfl rfl (by simp [LockedAt, hcell, hfree])
        (by simp [LockedAt, hput]) (fun hserial => ⟨_, hput, hserial cell hcell⟩)
        fun j hj => frame_of_getElem? (getElem?_put_of_ne hj _)
  | inside job cell cell' hcell hp hjob hm' hkept hmatches =>
      subst hm'
      have hput := getElem?_put hcell cell'
      refine .inside job.writer hp hkept.held (by simp [LockedAt, hput, hcell, hkept.locked])
        ?_ fun j hj => frame_of_getElem? (getElem?_put_of_ne hj _)
      rintro ⟨cell'', hcell'', howned⟩
      obtain rfl : cell = cell'' := Option.some.inj (hcell.symm.trans hcell'')
      exact ⟨cell', hput, hmatches howned⟩
  | unlocked job cell hcell hp hm' hp' =>
      subst hp hm' hp'
      have hput := getElem?_put hcell { cell with locked := false }
      refine .release job.writer rfl rfl (by simp [LockedAt, hput]) ?_
        fun j hj => frame_of_getElem? (getElem?_put_of_ne hj _)
      rintro ⟨cell', hcell', howned⟩ cell'' hcell''
      obtain rfl : cell = cell' := Option.some.inj (hcell.symm.trans hcell')
      obtain rfl := Option.some.inj (hput.symm.trans hcell'')
      exact howned

def addrs (m : EagerSenders) : List String := m.writers.map SharedWriter.addr

theorem addrs_put {id : Nat} {cell cell' : SharedWriter} (hcell : m.writers[id]? = some cell)
    (haddr : cell'.addr = cell.addr) : (m.put id cell').addrs = m.addrs := by
  obtain ⟨hid, rfl⟩ := List.getElem?_eq_some_iff.mp hcell
  rw [addrs, put, List.map_set, haddr, addrs,
    ← List.getElem_map SharedWriter.addr (h := by simpa using hid), List.set_getElem_self]

theorem moves_addrs (h : SendMoves m p m' p') :
    m'.eagerStreams = m.eagerStreams ∧ m'.addrs = m.addrs ∨
    ∃ addr, m.eagerStreams.lookup addr = none ∧
      m'.eagerStreams = m.eagerStreams.insert addr m.addrs.length ∧
      m'.addrs = m.addrs ++ [addr] := by
  cases h with
  | found entry addr rest id hp hlookup hm' hp' =>
      subst hm'
      exact .inl ⟨rfl, rfl⟩
  | created entry addr rest hp hlookup hm' hp' =>
      subst hm'
      exact .inr ⟨addr, hlookup, by simp [addrs], by simp [addrs, SharedWriter.new]⟩
  | locked job cell hcell hp hfree hm' hp' =>
      subst hm'
      exact .inl ⟨rfl, addrs_put hcell rfl⟩
  | inside job cell cell' hcell hp hjob hm' hkept hmatches =>
      subst hm'
      exact .inl ⟨rfl, addrs_put hcell hkept.addr⟩
  | unlocked job cell hcell hp hm' hp' =>
      subst hm'
      exact .inl ⟨rfl, addrs_put hcell rfl⟩

def Mapped (m : EagerSenders) : Prop :=
  ∀ addr id, m.eagerStreams.lookup addr = some id ↔ m.addrs[id]? = some addr

theorem Mapped.moves (hm : m.Mapped) (h : SendMoves m p m' p') : m'.Mapped := by
  intro addr id
  rcases moves_addrs h with ⟨hstreams, haddrs⟩ | ⟨fresh, hfresh, hstreams, haddrs⟩
  · rw [hstreams, haddrs]
    exact hm addr id
  · rw [hstreams, haddrs]
    constructor
    · intro hlookup
      by_cases haddr : addr = fresh
      · subst haddr
        rw [Finmap.lookup_insert] at hlookup
        cases hlookup
        simp
      · rw [Finmap.lookup_insert_of_ne _ haddr] at hlookup
        have hold := (hm addr id).mp hlookup
        rw [List.getElem?_append_left (List.getElem?_eq_some_iff.mp hold).1]
        exact hold
    · intro hget
      rcases getElem?_snoc_eq_some hget with hold | ⟨rfl, rfl⟩
      · have hlookup := (hm addr id).mpr hold
        have haddr : addr ≠ fresh := by
          rintro rfl
          rw [hfresh] at hlookup
          cases hlookup
        rw [Finmap.lookup_insert_of_ne _ haddr]
        exact hlookup
      · exact Finmap.lookup_insert _

def Routed (m : EagerSenders) (p : SendPoint) : Prop :=
  ∀ job, p.job = some job → m.addrs[job.writer]? = some job.addr

theorem Routed.moves {q : SendPoint} (hq : m.Routed q) (h : SendMoves m p m' p') :
    m'.Routed q := by
  intro job hjob
  have hold := hq job hjob
  rcases moves_addrs h with ⟨-, haddrs⟩ | ⟨fresh, -, -, haddrs⟩
  · rw [haddrs]
    exact hold
  · rw [haddrs, List.getElem?_append_left (List.getElem?_eq_some_iff.mp hold).1]
    exact hold

theorem Mapped.routed (hm : m.Mapped) (hp : m.Routed p) (h : SendMoves m p m' p') :
    m'.Routed p' := by
  cases h with
  | found entry addr rest id hp hlookup hm' hp' =>
      subst hm' hp'
      rintro job ⟨⟩
      exact (hm addr id).mp hlookup
  | created entry addr rest hp hlookup hm' hp' =>
      subst hm' hp'
      rintro job ⟨⟩
      simp [addrs, SharedWriter.new]
  | locked job cell hcell hp hfree hm' hp' =>
      subst hp hm' hp'
      rintro job' ⟨⟩
      rw [addrs_put hcell (by rfl)]
      exact hp job rfl
  | inside job cell cell' hcell hheld hjob hm' hkept hmatches =>
      subst hm'
      intro job' hjob'
      obtain rfl : job = job' := Option.some.inj (hkept.sending.symm.trans hjob')
      rw [addrs_put hcell hkept.addr]
      exact hp job hjob
  | unlocked job cell hcell hp hm' hp' =>
      subst hp'
      rintro job' ⟨⟩

theorem ledger_moves (hp : m.Routed p) (h : SendMoves m p m' p') :
    Threads.total SharedWriter.ledger m'.writers + p'.carried =
      Threads.total SharedWriter.ledger m.writers + p.carried := by
  cases h with
  | found entry addr rest id hp hlookup hm' hp' =>
      subst hp hm' hp'
      rfl
  | created entry addr rest hp hlookup hm' hp' =>
      subst hp hm' hp'
      have hempty : (SharedWriter.new addr).ledger = 0 := rfl
      rw [Threads.total_append, Threads.total_cons, hempty]
      simp [SendPoint.carried]
  | locked job cell hcell hp hfree hm' hp' =>
      subst hp hm' hp'
      have hset := Threads.total_set SharedWriter.ledger hcell { cell with locked := true }
      exact congrArg (· + _) (add_right_cancel hset)
  | inside job cell cell' hcell hheld hjob hm' hkept hmatches =>
      subst hm'
      have hset := Threads.total_set SharedWriter.ledger hcell cell'
      have haddr : cell.addr = job.addr := by
        have hrouted := hp job hjob
        rw [addrs, List.getElem?_map, hcell] at hrouted
        exact Option.some.inj hrouted
      have hbalance := hkept.ledger haddr
      refine add_right_cancel (b := cell.ledger) ?_
      calc Threads.total SharedWriter.ledger (m.put job.writer cell').writers + p'.carried +
            cell.ledger
          = (Threads.total SharedWriter.ledger (m.put job.writer cell').writers +
              cell.ledger) + p'.carried := by abel
        _ = Threads.total SharedWriter.ledger m.writers + (cell'.ledger + p'.carried) := by
            rw [put, hset]
            abel
        _ = Threads.total SharedWriter.ledger m.writers + p.carried + cell.ledger := by
            rw [hbalance]
            abel
  | unlocked job cell hcell hp hm' hp' =>
      subst hp hm' hp'
      have hset := Threads.total_set SharedWriter.ledger hcell { cell with locked := false }
      exact congrArg (· + _) (add_right_cancel hset)

end EagerSenders

/-! ## What the streams carry meanwhile -/

def SharedWriter.Framed (cell : SharedWriter) : Prop :=
  ∀ stream ∈ cell.writer.streams, stream.bytes <+: UniStream.frames stream.attempted

theorem SharedWriter.Serial.framed {cell : SharedWriter} (h : cell.Serial) : cell.Framed := by
  intro stream hstream
  have htracks := writerRun_tracks cell.calls
  rw [← h] at htracks
  exact (htracks.sound stream hstream).framed

theorem SendPoint.Matches.framed {p : SendPoint} {cell : SharedWriter} (h : p.Matches cell) :
    cell.Framed := by
  have htracks := writerRun_tracks cell.calls
  cases p with
  | forward | lock | openUniStream | unlock => exact SharedWriter.Serial.framed h
  | writeType => exact h.1.framed
  | writeHeader job faults =>
      obtain ⟨-, hwriter, -⟩ := h
      intro stream hstream
      rw [hwriter] at hstream
      exact ((htracks.openStream faults).sound stream hstream).framed
  | writeBody job faults =>
      obtain ⟨-, -, s, hopen, hwriter⟩ := h
      have hopened := htracks.openStream faults
      intro stream hstream
      rw [hwriter] at hstream
      rcases List.mem_append.mp hstream with hclosed | hcurrent
      · exact (hopened.closed stream hclosed).framed
      · obtain rfl := by simpa using hcurrent
        rw [UniStream.frames_append, hopened.stream s hopen, List.prefix_append_right_inj]
        simp [eagerFrame]

/-! ## Progress -/

def SendPoint.Finished (p : SendPoint) : Prop := ∃ entry, p = .forward entry []

private theorem SharedWriter.operate_of_matches {cell : SharedWriter} {p : SendPoint} {id : Nat}
    (hp : p.held = some id) (h : p.Matches cell) : ∃ c, (cell.operate p c).isSome := by
  -- nothing inside the critical section waits for another goroutine
  cases p with
  | forward => cases hp
  | lock => cases hp
  | openUniStream job =>
      cases hstream : cell.writer.stream with
      | none => exact ⟨.opens, by simp [operate, hstream]⟩
      | some s => exact ⟨.proceed, by simp [operate, hstream]⟩
  | writeType job => exact ⟨.writes none, rfl⟩
  | writeHeader job faults =>
      obtain ⟨-, -, s, hs⟩ := h
      exact ⟨.writes none, by simp [operate, hs]⟩
  | writeBody job faults =>
      obtain ⟨-, -, s, -, hwriter⟩ := h
      exact ⟨.writes none, by simp [operate, hwriter]⟩
  | unlock job => exact ⟨.proceed, rfl⟩

namespace EagerSenders

theorem operate_of_cell {m : EagerSenders} {p : SendPoint} {c : SendChoice} {job : SendJob}
    {cell : SharedWriter} (hjob : p.job = some job)
    (hcell : m.writers[job.writer]? = some cell) (hop : (cell.operate p c).isSome) :
    ∃ next, m.operate p c = some next := by
  obtain ⟨next, hnext⟩ := Option.isSome_iff_exists.mp hop
  unfold operate
  split
  · cases hjob
  · exact ⟨_, by rw [sendStep, hjob, Option.bind_some, hcell, Option.bind_some, hnext]; rfl⟩

theorem operate_of_owned {m : EagerSenders} {p : SendPoint} {id : Nat}
    (hp : p.held = some id) (h : m.OwnedAt id p) : ∃ c next, m.operate p c = some next := by
  obtain ⟨cell, hcell, hmatches⟩ := h
  obtain ⟨c, hop⟩ := SharedWriter.operate_of_matches hp hmatches
  obtain ⟨job, hjob, rfl⟩ := SendPoint.job_of_held hp
  exact ⟨c, operate_of_cell hjob hcell hop⟩

end EagerSenders

namespace SenderThreads

def start (sends : List (GossipEntry × List String)) : Threads EagerSenders SendPoint :=
  ⟨.new, sends.map fun send => .forward send.1 send.2⟩

def asked (sends : List (GossipEntry × List String)) : Multiset (String × GossipEntry) :=
  ↑(sends.flatMap fun send => send.2.map fun addr => (addr, send.1))

abbrev step := Threads.step EagerSenders.operate

structure Inv (sends : List (GossipEntry × List String))
    (s : Threads EagerSenders SendPoint) : Prop where
  exclusive : Threads.Exclusive EagerSenders.LockedAt SendPoint.held EagerSenders.FreeAt
    EagerSenders.OwnedAt s
  mapped : s.memory.Mapped
  routed : ∀ p ∈ s.routines, s.memory.Routed p
  accounted : asked sends = Threads.total SharedWriter.ledger s.memory.writers +
    Threads.total SendPoint.carried s.routines

variable {sends : List (GossipEntry × List String)} {s t : Threads EagerSenders SendPoint}

theorem inv_start (sends : List (GossipEntry × List String)) : Inv sends (start sends) where
  exclusive := by
    refine ⟨?_, ?_, ?_⟩
    · intro i
      have hnone : Threads.holders SendPoint.held i (start sends).routines = 0 := by
        simp [Threads.holders, start, SendPoint.held, List.countP_eq_zero]
      rw [hnone]
      rfl
    · rintro i - cell ⟨⟩
    · intro p hp i hi
      obtain ⟨send, -, rfl⟩ := List.mem_map.mp hp
      cases hi
  mapped := by
    intro addr id
    constructor
    · intro hlookup
      cases hlookup
    · intro hget
      cases hget
  routed := by
    intro p hp job hjob
    obtain ⟨send, -, rfl⟩ := List.mem_map.mp hp
    cases hjob
  accounted := by
    induction sends with
    | nil => rfl
    | cons send sends ih =>
        have hrest : asked sends = Threads.total SendPoint.carried (start sends).routines := by
          simpa [start, EagerSenders.new] using ih
        simp only [start, EagerSenders.new, List.map_cons, Threads.total_cons,
          Threads.total_nil, zero_add] at hrest ⊢
        rw [← hrest]
        rfl

theorem inv_step {l : Nat × SendChoice} (h : Inv sends s) (hstep : step s l = some t) :
    Inv sends t := by
  obtain ⟨before, p, after, p', new, -, hs, hmove, ht⟩ := Threads.step_eq_some hstep
  obtain ⟨rfl, hmoves⟩ := EagerSenders.operate_moves hmove
  have hp : s.memory.Routed p := h.routed p (by simp [hs])
  refine ⟨?_, h.mapped.moves hmoves, ?_, ?_⟩
  · refine Threads.exclusive_step (fun m p c m' p' new hop => ?_) h.exclusive hstep
    obtain ⟨hnew, hmoves⟩ := EagerSenders.operate_moves hop
    exact ⟨hnew, EagerSenders.moves_guarded hmoves⟩
  · intro q hq
    rw [ht, List.append_nil] at hq
    rcases Threads.mem_of_move p hq with rfl | hq
    · exact h.mapped.routed hp hmoves
    · exact (h.routed q (hs ▸ hq)).moves hmoves
  · refine Threads.conservation_move (fun _ => asked sends)
      (fun m => Threads.total SharedWriter.ledger m.writers) SendPoint.carried ?_
      h.accounted hstep
    intro p hp m' p' new hop
    obtain ⟨rfl, hmoves⟩ := EagerSenders.operate_moves hop
    exact ⟨0, (add_zero _).symm, by simpa using EagerSenders.ledger_moves (h.routed p hp) hmoves⟩

theorem Inv.holder (h : Inv sends s) {id : Nat} {cell : SharedWriter}
    (hcell : s.memory.writers[id]? = some cell) (hlocked : cell.locked = true) :
    ∃ p ∈ s.routines, p.held = some id ∧ p.Matches cell := by
  have hone := h.exclusive.one id
  rw [EagerSenders.LockedAt, hcell, Option.any_some, hlocked, if_pos rfl] at hone
  obtain ⟨p, hp, hheld⟩ := List.countP_pos_iff.mp (Nat.lt_of_lt_of_eq Nat.zero_lt_one hone.symm)
  have hheld : p.held = some id := by simpa using hheld
  obtain ⟨cell', hcell', hmatches⟩ := h.exclusive.owned p hp id hheld
  obtain rfl : cell = cell' := Option.some.inj (hcell.symm.trans hcell')
  exact ⟨p, hp, hheld, hmatches⟩

private theorem Inv.progress (h : Inv sends s) {p : SendPoint} (hp : p ∈ s.routines)
    (hunfinished : ¬ p.Finished) : ∃ l t, step s l = some t := by
  -- a goroutine that waits for a mutex waits for one that can go on
  have hinside : ∀ q ∈ s.routines, ∀ id, q.held = some id → ∃ l t, step s l = some t := by
    intro q hq id hid
    obtain ⟨c, next, hop⟩ :=
      EagerSenders.operate_of_owned hid (h.exclusive.owned q hq id hid)
    exact Threads.exists_step hq hop
  cases p with
  | forward entry addrs =>
      cases addrs with
      | nil => exact absurd ⟨entry, rfl⟩ hunfinished
      | cons addr rest => exact Threads.exists_step (c := .proceed) hp rfl
  | lock job =>
      have hrouted := h.routed _ hp job rfl
      rw [EagerSenders.addrs, List.getElem?_map] at hrouted
      obtain ⟨cell, hcell, -⟩ := Option.map_eq_some_iff.mp hrouted
      cases hlocked : cell.locked with
      | true =>
          obtain ⟨q, hq, hheld, -⟩ := h.holder hcell hlocked
          exact hinside q hq _ hheld
      | false =>
          obtain ⟨next, hop⟩ := EagerSenders.operate_of_cell (p := .lock job) (c := .proceed)
            rfl hcell (by simp [SharedWriter.operate, hlocked])
          exact Threads.exists_step hp hop
  | openUniStream job | writeType job | writeHeader job | writeBody job | unlock job =>
      exact hinside _ hp job.writer rfl

private theorem Inv.framed (h : Inv sends s) {id : Nat} {cell : SharedWriter}
    (hcell : s.memory.writers[id]? = some cell) : cell.Framed := by
  cases hlocked : cell.locked with
  | true =>
      obtain ⟨p, -, -, hmatches⟩ := h.holder hcell hlocked
      exact hmatches.framed
  | false =>
      have hfree := h.exclusive.free id (by simp [EagerSenders.LockedAt, hcell, hlocked])
      exact (hfree cell hcell).framed

/--
Concurrent sends of large messages.  Each address has one writer.  A writer
that nobody has locked is, streams and results, what its calls would have left
in the order in which they held its mutex, and at every moment the bytes of a
stream begin the frames of the sends attempted on it.  No send is lost or made
twice, and there is no deadlock: some goroutine can go on as long as one has
not finished.
-/
theorem eager_sends_serialised {labels : List (Nat × SendChoice)}
    (hrun : exec step (start sends) labels = some s) :
    (∀ addr id, s.memory.eagerStreams.lookup addr = some id ↔
      s.memory.writers[id]?.map SharedWriter.addr = some addr) ∧
    (∀ id cell, s.memory.writers[id]? = some cell →
      Threads.holders SendPoint.held id s.routines = (if cell.locked then 1 else 0) ∧
      (cell.locked = false → (cell.writer, cell.results) = writerRun cell.calls) ∧
      ∀ stream ∈ cell.writer.streams, stream.bytes <+: UniStream.frames stream.attempted) ∧
    asked sends = Threads.total SharedWriter.ledger s.memory.writers +
      Threads.total SendPoint.carried s.routines ∧
    ((∃ p ∈ s.routines, ¬ p.Finished) → ∃ l t, step s l = some t) := by
  have h : Inv sends s :=
    exec_invariant (Inv sends) (fun _ _ _ h hstep => inv_step h hstep) (inv_start sends) hrun
  refine ⟨fun addr id => ?_, fun id cell hcell => ⟨?_, ?_, h.framed hcell⟩, h.accounted, ?_⟩
  · rw [← List.getElem?_map]
    exact h.mapped addr id
  · simpa [EagerSenders.LockedAt, hcell] using h.exclusive.one id
  · intro hlocked
    exact h.exclusive.free id (by simp [EagerSenders.LockedAt, hcell, hlocked]) cell hcell
  · rintro ⟨p, hp, hunfinished⟩
    exact h.progress hp hunfinished

def meeting : List (GossipEntry × List String) := [(⟨1, 1, [7]⟩, ["b:1"]), (⟨1, 2, [8]⟩, ["b:1"])]

def meetingRun : List (Nat × SendChoice) :=
  -- two goroutines meet at one writer; the first send fails in its header
  [(0, .proceed), (1, .proceed), (1, .proceed), (1, .opens), (1, .writes none),
    (1, .writes (some 2)), (1, .proceed), (0, .proceed), (0, .opens), (0, .writes none),
    (0, .writes none), (0, .writes none), (0, .proceed)]

theorem eager_sends_serialised_meeting :
    ∃ s cell, exec step (start meeting) meetingRun = some s ∧
      s.memory.writers = [cell] ∧ sentEntries cell.calls = [⟨1, 2, [8]⟩, ⟨1, 1, [7]⟩] ∧
      cell.results = [false, true] ∧ (cell.writer, cell.results) = writerRun cell.calls := by
  obtain ⟨s, cell, hrun, hwriters, hcalls, hresults, hfree⟩ :
      ∃ s cell, exec step (start meeting) meetingRun = some s ∧ s.memory.writers = [cell] ∧
        sentEntries cell.calls = [⟨1, 2, [8]⟩, ⟨1, 1, [7]⟩] ∧
        cell.results = [false, true] ∧ cell.locked = false :=
    ⟨_, _, rfl, rfl, rfl, rfl, rfl⟩
  obtain ⟨-, hcells, -⟩ := eager_sends_serialised hrun
  exact ⟨s, cell, hrun, hwriters, hcalls, hresults,
    (hcells 0 cell (by rw [hwriters]; rfl)).2.1 hfree⟩

end SenderThreads

end GossipMesh.Engine
