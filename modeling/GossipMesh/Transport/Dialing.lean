import GossipMesh.Transport.Pool

/-!
# Goroutines that dial one address

`getOrDial` lets racing dials of an address agree on one connection and closes
the others.  This works as long as the address has no dead connection: a
goroutine that has seen one deletes whatever the address maps to by then.
Connections that the transport accepts or is given replace what the address
maps to, so none may come in for it meanwhile.
-/

namespace GossipMesh.Transport

open GossipMesh.Foundation

/-- The connection a goroutine has obtained and not yet put into the map or closed. -/
def PoolPoint.unpooled : PoolPoint → Multiset Nat
  | .publish _ _ conn | .compare _ _ conn _ | .closeDuplicate _ _ conn _ | .replace _ _ conn
  | .register _ conn _ => {conn}
  | _ => 0

/-- No stream fails to open, no connection ends and none comes in for `a`. -/
def PoolChoice.Quiet (a : String) : PoolChoice → Prop
  | .openFails | .ends _ => False
  | .inbound addr => addr ≠ a
  | _ => True

/--
What is known of a goroutine as long as the connection of `a` stays, once there
is one, and the transport is not shut down.
-/
def PoolPoint.Agrees (m : Pool) (a : String) : PoolPoint → Prop
  | .load _ _ | .dial _ _ | .publish _ _ _ | .use _ _ _ | .done | .acceptLoop | .addConnection
  | .serveInbound _ _ | .network => True
  | .inspect addr _ conn | .compare addr _ _ conn | .closeDuplicate addr _ _ conn
  | .serve addr _ conn => addr = a → m.appConns.lookup a = some conn
  | .evict addr _ | .replace addr _ _ | .register addr _ _ => addr ≠ a
  | _ => False

theorem agrees_missing (m : Pool) (a addr : String) (purpose : Purpose) :
    (Pool.missing addr purpose).Agrees m a := by
  cases purpose <;> trivial

theorem unpooled_missing (addr : String) (purpose : Purpose) :
    (Pool.missing addr purpose).unpooled = 0 := by
  cases purpose <;> rfl

theorem PoolPoint.Agrees.mono {m m' : Pool} {a : String} {p : PoolPoint} (h : p.Agrees m a)
    (hstay : ∀ conn, m.appConns.lookup a = some conn → m'.appConns.lookup a = some conn) :
    p.Agrees m' a := by
  cases p with
  | inspect | compare | closeDuplicate | serve => exact fun haddr => hstay _ (h haddr)
  | _ => exact h

structure Pool.Idle (m : Pool) : Prop where
  pooled : ∀ addr conn, m.appConns.lookup addr = some conn → conn < m.nextConn
  ended : ∀ conn ∈ m.ended, conn < m.nextConn
  returned : m.returned = []
  up : m.down = false

namespace PoolThreads

/-- Whoever returned from a call with address `a` has the connection `a` maps to. -/
structure Agreed (a : String) (s : PoolThreads) : Prop where
  distinct : (Threads.total PoolPoint.unpooled s.routines).Nodup
  unpooled : ∀ conn ∈ Threads.total PoolPoint.unpooled s.routines,
    conn < s.memory.nextConn ∧ conn ∉ s.memory.ended ∧
      ∀ addr, s.memory.appConns.lookup addr ≠ some conn
  pooled : ∀ addr conn, s.memory.appConns.lookup addr = some conn → conn < s.memory.nextConn
  ended : ∀ conn ∈ s.memory.ended, conn < s.memory.nextConn
  live : ∀ conn, s.memory.appConns.lookup a = some conn → conn ∉ s.memory.ended
  returned : ∀ conn, (a, conn) ∈ s.memory.returned → s.memory.appConns.lookup a = some conn
  agrees : ∀ p ∈ s.routines, p.Agrees s.memory a

variable {a : String} {s : PoolThreads} {before after : List PoolPoint} {p p' : PoolPoint}

namespace Agreed

theorem others (h : Agreed a s) (hsplit : s.routines = before ++ p :: after) :
    Threads.total PoolPoint.unpooled s.routines =
        p.unpooled + Threads.total PoolPoint.unpooled (before ++ after) ∧
      (Threads.total PoolPoint.unpooled (before ++ after)).Nodup ∧
      ∀ conn ∈ p.unpooled, conn ∉ Threads.total PoolPoint.unpooled (before ++ after) := by
  have htotal : Threads.total PoolPoint.unpooled s.routines =
      p.unpooled + Threads.total PoolPoint.unpooled (before ++ after) := by
    rw [hsplit, Threads.total_move]
  have hdistinct := h.distinct
  rw [htotal, Multiset.nodup_add] at hdistinct
  exact ⟨htotal, hdistinct.2.1, fun conn hconn => Multiset.disjoint_left.mp hdistinct.2.2 hconn⟩

theorem move (h : Agreed a s) (hsplit : s.routines = before ++ p :: after) {m' : Pool}
    (hstay : ∀ conn, s.memory.appConns.lookup a = some conn →
      m'.appConns.lookup a = some conn)
    (hnext : s.memory.nextConn ≤ m'.nextConn)
    (hpooled : ∀ addr conn, m'.appConns.lookup addr = some conn →
      s.memory.appConns.lookup addr = some conn ∨ conn ∈ p.unpooled)
    (hended : ∀ conn ∈ m'.ended, conn ∈ s.memory.ended ∨ conn ∈ p.unpooled)
    (hlive : ∀ conn, m'.appConns.lookup a = some conn → conn ∉ m'.ended)
    (hreturned : ∀ conn, (a, conn) ∈ m'.returned →
      (a, conn) ∈ s.memory.returned ∨ m'.appConns.lookup a = some conn)
    (hheld : p'.unpooled.Nodup)
    (hholds : ∀ conn ∈ p'.unpooled,
      conn ∉ Threads.total PoolPoint.unpooled (before ++ after) ∧ conn < m'.nextConn ∧
        conn ∉ m'.ended ∧ ∀ addr, m'.appConns.lookup addr ≠ some conn)
    (hagrees : p'.Agrees m' a) : Agreed a ⟨m', before ++ p' :: after⟩ := by
  obtain ⟨htotal, hothers, hown⟩ := h.others hsplit
  have hmem : ∀ conn, conn ∈ p.unpooled ∨
      conn ∈ Threads.total PoolPoint.unpooled (before ++ after) →
      conn ∈ Threads.total PoolPoint.unpooled s.routines := by
    intro conn hconn
    rw [htotal]
    exact Multiset.mem_add.mpr hconn
  have htotal' := Threads.total_move PoolPoint.unpooled before after p'
  refine ⟨?_, ?_, ?_, ?_, hlive, ?_, ?_⟩
  · change (Threads.total PoolPoint.unpooled (before ++ p' :: after)).Nodup
    rw [htotal', Multiset.nodup_add]
    exact ⟨hheld, hothers, Multiset.disjoint_left.mpr fun {conn} hconn => (hholds conn hconn).1⟩
  · intro conn hconn
    change conn ∈ Threads.total PoolPoint.unpooled (before ++ p' :: after) at hconn
    rw [htotal', Multiset.mem_add] at hconn
    rcases hconn with hconn | hconn
    · exact (hholds conn hconn).2
    · obtain ⟨hlt, hnot, hnew⟩ := h.unpooled conn (hmem conn (.inr hconn))
      refine ⟨lt_of_lt_of_le hlt hnext, fun hend => ?_, fun addr hlookup => ?_⟩
      · rcases hended conn hend with hend | hend
        · exact hnot hend
        · exact hown conn hend hconn
      · rcases hpooled addr conn hlookup with hold | hold
        · exact hnew addr hold
        · exact hown conn hold hconn
  · intro addr conn hlookup
    rcases hpooled addr conn hlookup with hold | hold
    · exact lt_of_lt_of_le (h.pooled addr conn hold) hnext
    · exact lt_of_lt_of_le (h.unpooled conn (hmem conn (.inl hold))).1 hnext
  · intro conn hend
    rcases hended conn hend with hold | hold
    · exact lt_of_lt_of_le (h.ended conn hold) hnext
    · exact lt_of_lt_of_le (h.unpooled conn (hmem conn (.inl hold))).1 hnext
  · intro conn hret
    rcases hreturned conn hret with hold | hnow
    · exact hstay conn (h.returned conn hold)
    · exact hnow
  · intro q hq
    rcases Threads.mem_of_move p hq with rfl | hq
    · exact hagrees
    · exact (h.agrees q (hsplit ▸ hq)).mono hstay

theorem pass (h : Agreed a s) (hsplit : s.routines = before ++ p :: after)
    (hheld : p'.unpooled = p.unpooled ∨ p'.unpooled = 0) (hagrees : p'.Agrees s.memory a) :
    Agreed a ⟨s.memory, before ++ p' :: after⟩ := by
  obtain ⟨htotal, -, hown⟩ := h.others hsplit
  have hdistinct := h.distinct
  rw [htotal, Multiset.nodup_add] at hdistinct
  refine h.move hsplit (fun _ => id) (le_refl _) (fun _ _ => .inl) (fun _ => .inl) h.live
    (fun _ => .inl) ?_ ?_ hagrees
  · rcases hheld with hheld | hheld
    · rw [hheld]
      exact hdistinct.1
    · rw [hheld]
      exact Multiset.nodup_zero
  · intro conn hconn
    rcases hheld with hheld | hheld
    · rw [hheld] at hconn
      refine ⟨hown conn hconn, h.unpooled conn ?_⟩
      rw [htotal]
      exact Multiset.mem_add.mpr (.inl hconn)
    · rw [hheld] at hconn
      exact (Multiset.notMem_zero conn hconn).elim

theorem served (h : Agreed a s) (hsplit : s.routines = before ++ p :: after) (conn : Nat)
    (hheld : p'.unpooled = 0) (hagrees : ∀ m, p'.Agrees m a) :
    Agreed a ⟨s.memory.startAcceptLoop conn, before ++ p' :: after⟩ := by
  have hsame : (s.memory.startAcceptLoop conn).appConns = s.memory.appConns ∧
      (s.memory.startAcceptLoop conn).ended = s.memory.ended ∧
      (s.memory.startAcceptLoop conn).returned = s.memory.returned := by
    unfold Pool.startAcceptLoop
    split <;> exact ⟨rfl, rfl, rfl⟩
  obtain ⟨happConns, hended, hreturned⟩ := hsame
  refine h.move hsplit (by simp [happConns]) (by simp) ?_ ?_ ?_ ?_
    (by rw [hheld]; exact Multiset.nodup_zero) (by simp [hheld]) (hagrees _)
  · intro addr other hlookup
    exact .inl (happConns ▸ hlookup)
  · intro other hother
    exact .inl (hended ▸ hother)
  · rw [happConns, hended]
    exact h.live
  · intro other hother
    exact .inl (hreturned ▸ hother)

theorem answer (h : Agreed a s) (hsplit : s.routines = before ++ p :: after) {addr : String}
    {purpose : Purpose} {conn : Nat}
    (haddr : addr = a → s.memory.appConns.lookup a = some conn) {m' : Pool}
    (happConns : m'.appConns = s.memory.appConns) (hended : m'.ended = s.memory.ended)
    (hnext : m'.nextConn = s.memory.nextConn)
    (hreturned : m'.returned = s.memory.returned ++ [(addr, conn)]) :
    Agreed a ⟨m', before ++ .use addr purpose conn :: after⟩ := by
  refine h.move hsplit (by simp [happConns]) (by rw [hnext]) ?_ ?_ ?_ ?_ Multiset.nodup_zero
    (by simp [PoolPoint.unpooled]) trivial
  · intro addr conn hlookup
    rw [happConns] at hlookup
    exact .inl hlookup
  · intro conn hconn
    rw [hended] at hconn
    exact .inl hconn
  · rw [happConns, hended]
    exact h.live
  · intro other hother
    rw [hreturned, List.mem_append, List.mem_singleton, Prod.mk.injEq] at hother
    rcases hother with hold | ⟨rfl, rfl⟩
    · exact .inl hold
    · rw [happConns]
      exact .inr (haddr rfl)

theorem store (h : Agreed a s) (hsplit : s.routines = before ++ p :: after) {addr : String}
    {conn : Nat} (hheld : p.unpooled = {conn})
    (hfree : addr = a → s.memory.appConns.lookup a = none) (hheld' : p'.unpooled = 0)
    (hagrees : p'.Agrees (s.memory.store addr conn) a) :
    Agreed a ⟨s.memory.store addr conn, before ++ p' :: after⟩ := by
  obtain ⟨htotal, -, -⟩ := h.others hsplit
  obtain ⟨-, halive, -⟩ := h.unpooled conn (by rw [htotal, hheld]; simp)
  refine h.move hsplit ?_ (le_refl _) ?_ (fun _ => .inl) ?_ (fun _ => .inl)
    (by rw [hheld']; exact Multiset.nodup_zero) (by simp [hheld']) hagrees
  · intro other hother
    by_cases haddr : addr = a
    · rw [hfree haddr] at hother
      cases hother
    · rw [Pool.store, Finmap.lookup_insert_of_ne _ (Ne.symm haddr)]
      exact hother
  · intro key other hother
    by_cases hkey : key = addr
    · subst hkey
      rw [Pool.store, Finmap.lookup_insert] at hother
      cases hother
      exact .inr (by simp [hheld])
    · rw [Pool.store, Finmap.lookup_insert_of_ne _ hkey] at hother
      exact .inl hother
  · intro other hother
    by_cases haddr : a = addr
    · subst haddr
      rw [Pool.store, Finmap.lookup_insert] at hother
      cases hother
      exact halive
    · rw [Pool.store, Finmap.lookup_insert_of_ne _ haddr] at hother
      exact h.live other hother

theorem delete (h : Agreed a s) (hsplit : s.routines = before ++ p :: after) {addr : String}
    (purpose : Purpose) (hother : addr ≠ a) :
    Agreed a ⟨s.memory.delete addr, before ++ Pool.missing addr purpose :: after⟩ := by
  have hlookup : (s.memory.delete addr).appConns.lookup a = s.memory.appConns.lookup a :=
    Finmap.lookup_erase_ne (Ne.symm hother)
  refine h.move hsplit (by simp [hlookup]) (le_refl _) ?_ (fun _ => .inl) ?_ (fun _ => .inl)
    (by rw [unpooled_missing]; exact Multiset.nodup_zero) (by simp [unpooled_missing])
    (agrees_missing _ a addr purpose)
  · intro key conn hconn
    by_cases hkey : key = addr
    · subst hkey
      rw [Pool.delete, Finmap.lookup_erase] at hconn
      cases hconn
    · rw [Pool.delete, Finmap.lookup_erase_ne hkey] at hconn
      exact .inl hconn
  · rw [hlookup]
    exact h.live

private theorem obtains (h : Agreed a s) (hsplit : s.routines = before ++ p :: after)
    (hheld : p'.unpooled = {s.memory.nextConn}) (hagrees : p'.Agrees s.memory.obtain a) :
    Agreed a ⟨s.memory.obtain, before ++ p' :: after⟩ := by
  obtain ⟨htotal, -, -⟩ := h.others hsplit
  refine h.move hsplit (fun _ => id) (Nat.le_succ _) (fun _ _ => .inl) (fun _ => .inl) h.live
    (fun _ => .inl) (by rw [hheld]; exact Multiset.nodup_singleton _) ?_ hagrees
  intro conn hconn
  obtain rfl : conn = s.memory.nextConn := Multiset.mem_singleton.mp (hheld ▸ hconn)
  refine ⟨fun hheld => ?_, Nat.lt_succ_self _, fun hended => ?_, fun key hpooled => ?_⟩
  · refine lt_irrefl _ (h.unpooled s.memory.nextConn ?_).1
    rw [htotal]
    exact Multiset.mem_add.mpr (.inr hheld)
  · exact lt_irrefl _ (h.ended _ hended)
  · exact lt_irrefl _ (h.pooled key _ hpooled)

private theorem closeDuplicate (h : Agreed a s) {addr : String} {purpose : Purpose}
    {conn existing : Nat}
    (hsplit : s.routines = before ++ .closeDuplicate addr purpose conn existing :: after) :
    Agreed a ⟨{ (s.memory.close conn).answer addr existing with
      duplicates := s.memory.duplicates ++ [conn] },
      before ++ .use addr purpose existing :: after⟩ := by
  have hplaced := h.agrees (.closeDuplicate addr purpose conn existing) (by simp [hsplit])
  obtain ⟨htotal, -, -⟩ := h.others hsplit
  obtain ⟨-, -, hnew⟩ := h.unpooled conn (by rw [htotal]; simp [PoolPoint.unpooled])
  refine h.move hsplit (fun _ => id) (le_refl _) (fun _ _ => .inl) ?_ ?_ ?_
    Multiset.nodup_zero (by simp [PoolPoint.unpooled]) trivial
  · intro other hother
    rcases Finset.mem_insert.mp hother with rfl | hold
    · exact .inr (Multiset.mem_singleton_self _)
    · exact .inl hold
  · intro other hlookup hended
    rcases Finset.mem_insert.mp hended with rfl | hold
    · exact hnew a hlookup
    · exact h.live other hlookup hold
  · intro other hother
    rcases List.mem_append.mp hother with hold | hlast
    · exact .inl hold
    · obtain ⟨rfl, rfl⟩ := Prod.mk.inj (List.mem_singleton.mp hlast)
      exact .inr (hplaced rfl)

theorem step (h : Agreed a s) {t : PoolThreads} {l : Nat × PoolChoice}
    (hquiet : l.2.Quiet a) (hstep : PoolThreads.step s l = some t) : Agreed a t := by
  obtain ⟨i, c⟩ := l
  obtain ⟨before, p, after, p', hsplit, hmoves, hroutines⟩ := moves_of_step hstep
  obtain ⟨m', routines'⟩ := t
  subst hroutines
  have hplaced := h.agrees p (by simp [hsplit])
  cases hmoves with
  | absent addr purpose hnone =>
      exact h.pass hsplit (.inr (unpooled_missing addr purpose))
        (agrees_missing _ _ addr purpose)
  | present addr purpose conn hsome =>
      exact h.pass hsplit (.inr rfl) fun haddr => haddr ▸ hsome
  | dead addr purpose conn hended =>
      exact h.pass hsplit (.inr rfl) fun haddr => h.live conn (hplaced haddr) hended
  | alive addr purpose conn halive => exact h.answer hsplit hplaced rfl rfl rfl rfl
  | evict addr purpose => exact h.delete hsplit purpose hplaced
  | dialled addr purpose hup => exact h.obtains hsplit rfl trivial
  | dialFails addr purpose => exact h.pass hsplit (.inr rfl) trivial
  | publish addr purpose conn hnone =>
      exact h.store hsplit rfl (fun haddr => haddr ▸ hnone) rfl
        fun haddr => haddr ▸ Finmap.lookup_insert _
  | raced addr purpose conn existing hsome =>
      exact h.pass hsplit (.inl rfl) fun haddr => haddr ▸ hsome
  | existingDead addr purpose conn existing hended =>
      exact h.pass hsplit (.inl rfl) fun haddr => h.live existing (hplaced haddr) hended
  | existingAlive addr purpose conn existing halive =>
      exact h.pass hsplit (.inl rfl) hplaced
  | closeDuplicate addr purpose conn existing => exact h.closeDuplicate hsplit
  | replace addr purpose conn =>
      exact h.store hsplit rfl (fun haddr => (hplaced haddr).elim) rfl
        fun haddr => (hplaced haddr).elim
  | serve addr purpose conn =>
      refine h.answer hsplit hplaced ?_ ?_ ?_ ?_ <;>
        (unfold Pool.startAcceptLoop; split <;> rfl)
  | used addr purpose conn => exact h.pass hsplit (.inr rfl) trivial
  | openFails | ends => exact hquiet.elim
  | accepted | added => exact h.obtains hsplit rfl hquiet
  | acceptEnds hclosed => exact h.pass hsplit (.inr rfl) trivial
  | register addr conn accepting =>
      exact h.store hsplit rfl (fun haddr => (hplaced haddr).elim) rfl trivial
  | serveInbound conn accepting =>
      refine h.served hsplit conn ?_ fun m => ?_ <;>
        (cases accepting <;> first | rfl | trivial)
  | _ => exact hplaced.elim

end Agreed

theorem agreed_start {m : Pool} (hm : m.Idle) {calls : List PoolCall}
    (hup : .shutdown ∉ calls)
    (hlive : ∀ conn, m.appConns.lookup a = some conn → conn ∉ m.ended) :
    Agreed a (start m calls) := by
  have hpoints : ∀ p ∈ (start m calls).routines, p.unpooled = 0 ∧ p.Agrees m a := by
    intro p hp
    obtain ⟨call, hcall, rfl⟩ := List.mem_map.mp hp
    cases call with
    | shutdown => exact (hup hcall).elim
    | _ => exact ⟨rfl, trivial⟩
  have hnone : Threads.total PoolPoint.unpooled (start m calls).routines = 0 := by
    refine List.sum_eq_zero fun x hx => ?_
    obtain ⟨p, hp, rfl⟩ := List.mem_map.mp hx
    exact (hpoints p hp).1
  refine ⟨?_, ?_, hm.pooled, hm.ended, hlive, ?_, fun p hp => (hpoints p hp).2⟩
  · rw [hnone]
    exact Multiset.nodup_zero
  · simp [hnone]
  · intro conn hconn
    change (a, conn) ∈ m.returned at hconn
    rw [hm.returned] at hconn
    cases hconn

def redial (m : Pool) (a : String) : Pool :=
  (((m.delete a).obtain.store a m.nextConn).startAcceptLoop m.nextConn).answer a m.nextConn

theorem redial_fields (m : Pool) (a : String) :
    (redial m a).down = m.down ∧ (redial m a).nextConn = m.nextConn + 1 ∧
      (redial m a).returned = m.returned ++ [(a, m.nextConn)] := by
  unfold redial Pool.startAcceptLoop
  split <;> exact ⟨rfl, rfl, rfl⟩

private theorem solo_redial {m : Pool} (hup : m.down = false) (a : String) :
    Threads.Solo Pool.operate m (.evict a .sendDatagram) [.proceed, .dialled, .proceed, .proceed]
      (redial m a) (.use a .sendDatagram m.nextConn) [] := by
  have hevict : Pool.operate m (.evict a .sendDatagram) .proceed =
      some (m.delete a, .dial a .sendDatagram, []) := rfl
  have hdial : Pool.operate (m.delete a) (.dial a .sendDatagram) .dialled =
      some ((m.delete a).obtain, .publish a .sendDatagram m.nextConn, []) := by
    simp [Pool.operate, Pool.callStep, Pool.delete, hup]
  have hpublish : Pool.operate (m.delete a).obtain (.publish a .sendDatagram m.nextConn)
      .proceed = some ((m.delete a).obtain.store a m.nextConn,
        .serve a .sendDatagram m.nextConn, []) := by
    simp [Pool.operate, Pool.callStep, Pool.delete, Pool.obtain]
  have hserve : Pool.operate ((m.delete a).obtain.store a m.nextConn)
      (.serve a .sendDatagram m.nextConn) .proceed =
      some (redial m a, .use a .sendDatagram m.nextConn, []) := rfl
  exact .next hevict (.next hdial (.next hpublish (.one hserve)))

def seenDead : List (Nat × PoolChoice) :=
  -- both goroutines see the dead connection before either deletes it
  [(0, .proceed), (1, .proceed), (0, .proceed), (1, .proceed)] ++
    [(0, .proceed), (0, .dialled), (0, .proceed), (0, .proceed)] ++
    [(1, .proceed), (1, .dialled), (1, .proceed), (1, .proceed)]

private theorem exec_seenDead {m : Pool} (hm : m.Idle) {conn : Nat}
    (hconn : m.appConns.lookup a = some conn) (hended : conn ∈ m.ended) :
    ∃ s, exec step (start m [.use a .sendDatagram, .use a .sendDatagram]) seenDead = some s ∧
      s.memory.returned = [(a, m.nextConn), (a, m.nextConn + 1)] := by
  have hseen : exec step (start m [.use a .sendDatagram, .use a .sendDatagram])
      [(0, .proceed), (1, .proceed), (0, .proceed), (1, .proceed)] =
      some ⟨m, [.evict a .sendDatagram, .evict a .sendDatagram]⟩ := by
    simp [exec_cons, step, Threads.step, start, PoolCall.point, Pool.operate,
      Pool.callStep, hconn, hended]
  obtain ⟨hdown, hnext, hreturned⟩ := redial_fields m a
  have hfirst := (solo_redial hm.up a).exec [] [.evict a .sendDatagram]
  have hsecond := (solo_redial (hdown.trans hm.up) a).exec
    [.use a .sendDatagram m.nextConn] []
  refine ⟨_, exec_append_eq_some.mpr ⟨_, exec_append_eq_some.mpr ⟨_, hseen, hfirst⟩, hsecond⟩, ?_⟩
  change (redial (redial m a) a).returned = _
  rw [(redial_fields _ a).2.2, hreturned, hnext, hm.returned]
  rfl

/--
Goroutines that get or dial connections all get the same one for an address,
whatever the interleaving, exactly when the address has no dead connection to
begin with.  Meanwhile no stream fails to open and no connection ends; none is
accepted or added for the address, and nobody shuts the transport down.
-/
theorem dials_agree_iff {m : Pool} (hm : m.Idle) (a : String) :
    (∀ calls labels s, .shutdown ∉ calls → exec step (start m calls) labels = some s →
      (∀ l ∈ labels, l.2.Quiet a) →
      ∀ conn conn', (a, conn) ∈ s.memory.returned → (a, conn') ∈ s.memory.returned →
        conn = conn') ↔
    ∀ conn, m.appConns.lookup a = some conn → conn ∉ m.ended := by
  constructor
  · intro hagree conn hconn hended
    obtain ⟨s, hrun, hreturned⟩ := exec_seenDead hm hconn hended
    have heq := hagree _ _ s (by simp) hrun (by simp [seenDead, PoolChoice.Quiet])
      m.nextConn (m.nextConn + 1) (by simp [hreturned]) (by simp [hreturned])
    omega
  · intro hlive calls labels s hup hrun hquiet conn conn' hconn hconn'
    have hquiet' : Along step (fun _ l => l.2.Quiet a) (start m calls) labels :=
      along_of_forall hquiet
    have h : Agreed a s := exec_invariant_of_along (Agreed a)
      (fun _ _ _ hu hquiet hstep => hu.step hquiet hstep) (agreed_start hm hup hlive) hquiet' hrun
    exact Option.some.inj ((h.returned conn hconn).symm.trans (h.returned conn' hconn'))

def lapsed : Pool :=
  { Pool.new with appConns := Finmap.singleton "b:1" 0, nextConn := 1, ended := {0} }

private theorem lapsed_idle : lapsed.Idle where
  pooled := by
    intro addr conn hconn
    by_cases haddr : addr = "b:1"
    · subst haddr
      rw [lapsed, Finmap.lookup_singleton_eq] at hconn
      cases hconn
      decide
    · have hmem : addr ∈ lapsed.appConns := Finmap.mem_of_lookup_eq_some hconn
      exact absurd ((Finmap.mem_singleton addr "b:1" 0).mp hmem) haddr
  ended := by simp [lapsed]
  returned := rfl
  up := rfl

theorem dials_agree_iff_lapsed : lapsed.Idle ∧ ∃ calls labels s conn conn',
    .shutdown ∉ calls ∧ exec step (start lapsed calls) labels = some s ∧
      (∀ l ∈ labels, l.2.Quiet "b:1") ∧
      ("b:1", conn) ∈ s.memory.returned ∧ ("b:1", conn') ∈ s.memory.returned ∧
      conn ≠ conn' := by
  refine ⟨lapsed_idle, ?_⟩
  have hdead : ¬ ∀ conn, lapsed.appConns.lookup "b:1" = some conn → conn ∉ lapsed.ended :=
    fun hlive => hlive 0 Finmap.lookup_singleton_eq (Finset.mem_singleton_self 0)
  have hdiffer := mt (dials_agree_iff lapsed_idle "b:1").mp hdead
  push Not at hdiffer
  obtain ⟨calls, labels, s, hup, hrun, hquiet, conn, conn', hconn, hconn', hne⟩ := hdiffer
  exact ⟨calls, labels, s, conn, conn', hup, hrun, hquiet, hconn, hconn', hne⟩

end PoolThreads

end GossipMesh.Transport
